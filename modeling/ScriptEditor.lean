import ScriptEditor.Main
import ScriptEditor.Proofs.Answering
import ScriptEditor.Proofs.Display
import ScriptEditor.Proofs.Splicing
import ScriptEditor.Proofs.Editing
import ScriptEditor.Proofs.Refreshing
import ScriptEditor.Proofs.Reporting
import ScriptEditor.Proofs.Declaring
import ScriptEditor.Proofs.Selecting
import ScriptEditor.Proofs.Opacity
import ScriptEditor.Proofs.Counting
import ScriptEditor.Proofs.Alignment
import ScriptEditor.Background.Call
import ScriptEditor.Proofs.Closing
import ScriptEditor.Proofs.Nesting
import ScriptEditor.Proofs.Spacing
import ScriptEditor.Proofs.Styling
import ScriptEditor.Proofs.Tallying
import ScriptEditor.Proofs.Measuring
import ScriptEditor.Proofs.Seeking
import ScriptEditor.Proofs.Isolation
import ScriptEditor.Proofs.Idling
import ScriptEditor.Proofs.Recalling
import ScriptEditor.Proofs.Theming
import ScriptEditor.Proofs.Decoding
import ScriptEditor.Proofs.Pairing
import ScriptEditor.Proofs.Lasting
