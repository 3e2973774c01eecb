import PipeShell.Main
import PipeShell.Session
import PipeShell.Trial
import PipeShell.CommandLine
import PipeShell.Proofs.Parser.Transcript
import PipeShell.Proofs.CommandLine.Grammar
import PipeShell.Proofs.CommandLine.Rendering
import PipeShell.Proofs.Program.Calls
import PipeShell.Proofs.Shell.Conduct
import PipeShell.Proofs.Shell.Interpreter
import PipeShell.Proofs.Shell.Setup
import PipeShell.Proofs.Kernel.Effect
import PipeShell.Proofs.Kernel.Run
import PipeShell.Proofs.Kernel.Descent
import PipeShell.Proofs.Shell.Intact
import PipeShell.Proofs.Shell.Wiring
import PipeShell.Proofs.Shell.Holders
import PipeShell.Proofs.Kernel.History
import PipeShell.Proofs.Shell.Waiting
import PipeShell.Proofs.Shell.Outcome
import PipeShell.Proofs.CommandLine.Views
import PipeShell.Proofs.Shell.Dispatch
import PipeShell.Proofs.Kernel.Blocking
import PipeShell.Proofs.Shell.Progress
import PipeShell.Proofs.Parser.Completion
import PipeShell.Proofs.Parser.Segments
import PipeShell.Proofs.Kernel.Names
import PipeShell.Proofs.Kernel.Chronicle
import PipeShell.Proofs.Program.Watch
import PipeShell.Proofs.Shell.Opener
import PipeShell.Proofs.Kernel.Ancestry
import PipeShell.Proofs.Kernel.Custody
import PipeShell.Proofs.Shell.Course
import PipeShell.Proofs.Shell.Contents
import PipeShell.Proofs.Shell.Outlet
import PipeShell.Proofs.Shell.Search
import PipeShell.Proofs.Kernel.Executable
import PipeShell.Proofs.Shell.Launching
import PipeShell.Proofs.Shell.ExitCode
import PipeShell.Proofs.Parser.Cursor
import PipeShell.Proofs.Parser.Economy
import PipeShell.Proofs.CommandLine.Alternation
import PipeShell.Proofs.Shell.Reliance
import PipeShell.Proofs.Program.Acts
import PipeShell.Proofs.Shell.Carrying
