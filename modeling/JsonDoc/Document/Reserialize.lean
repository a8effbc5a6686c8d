import JsonDoc.Document.Read
import JsonDoc.Dump.Basic

/-!
# Documents written again

A document is read from a reader of bytes and written with the options that are asked for.
-/

namespace JsonDoc.Document

/-- The text of the document that bytes are, if they are one. -/
def reserialize (o : DumpOptions) (bytes : List UInt8) : Option String :=
  match parseSource (unlimited .insertion) (⟨bytes.map .byte⟩ : PlainReader) with
  | .ok v => some (v.dumpWith o)
  | .error _ => none

end JsonDoc.Document
