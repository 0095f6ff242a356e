import Linewise.Parser
import Linewise.Span.Bytes

namespace Linewise

structure Diagnostic where
  code : ErrorCode
  message : String
  /-- The path under which the text is known, and the text itself. -/
  path : String
  source : String
  /-- The bytes that the message is about, and what is written below them. -/
  range : ByteRange
  label : String
deriving DecidableEq, Repr

namespace Diagnostic

/-- An error without a place is shown at the end of the text. -/
def ofSyntaxError (error : SyntaxError) (path source : String) : Diagnostic :=
  match error.span? with
  | some span =>
    ⟨error.code, error.message, path, source, span.toBytes source.toList, "here"⟩
  | none =>
    ⟨error.code, error.message, path, source, ⟨Text.byteLength source.toList, 0⟩,
      "input ends here"⟩

end Diagnostic

def compile (path source : String) : Except (Failure Diagnostic) Program :=
  (parse source).mapError (.map (Diagnostic.ofSyntaxError · path source))

end Linewise
