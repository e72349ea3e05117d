import Splice.Command.Answer
import Splice.Command.Arguments
import Splice.Log.Plain

/-!
# The command

The command with a plain reader of its arguments and a plain log.
-/

namespace Splice.Command

def plain : Packages (List Plain.Directive) := ⟨Invocation.read, Plain.logger⟩

def answer (w : Surroundings) (args : List String) : Answer := plain.answer w args

end Splice.Command
