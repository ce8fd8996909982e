import Incron.Text.Escapes
import Incron.Text.Tokens
import Incron.Table.RoundTrip
import Incron.Table.Lines
import Incron.Table.NormalForm
import Incron.Table.CheckUser
import Incron.Table.Grammar
import Incron.Table.SafePath
import Incron.Daemon.FindCommand
import Incron.Daemon.FindOutput
import Incron.Daemon.CommandLine
import Incron.Daemon.Restart
import Incron.Daemon.Disposal
import Incron.Daemon.Handles
import Incron.Daemon.Batches
import Incron.Daemon.ProcessTree
import Incron.Daemon.RunAs
import Incron.Daemon.EventBuffer
import Incron.Daemon.Wildcards
import Incron.Daemon.Asked
import Incron.Daemon.Following
import Incron.Daemon.Consistency
import Incron.Daemon.Passes
import Incron.Daemon.Refinement
import Incron.Daemon.Endings
import Incron.Daemon.Shutdown
import Incron.Daemon.Signals
import Incron.Daemon.Resetting
import Incron.Daemon.Absent
import Incron.Daemon.MayAccess
import Incron.Instance.Lock
import Incron.Instance.Recovery
import Incron.Instance.Terminate
import Incron.Config.ShortForms
import Incron.Config.IncronCfg
import Incron.Incrontab.Import
import Incron.Incrontab.Edit
import Incron.Incrontab.Identity
import Incron.Incrontab.Host
import Incron.Daemon.Main
