import JsonDoc.Document.State
import JsonDoc.Source.Memory
import JsonDoc.Source.Reader
import JsonDoc.Token.Lexer

/-!
# Reading documents

A document is the whole of what a source gives: one value between blanks.  `ReadState.run` reads
tokens until the end of the input or the first error, and the functions below it read from each kind
of source.  `ReadState.runLexer` does the same with a lexer, and so leaves its source where reading
stopped.
-/

namespace JsonDoc

/-- The document that is read from a state on. -/
def ReadState.run (options : ReadOptions) (s : ReadState) (cur : Cursor) :
    EStateM.Result Cause Cursor Value :=
  match h : Token.scan cur with
  | .error cause next => .error cause next
  | .ok t next =>
    if ht : t = .endOfInput then
      match s.atEnd with
      | .ok v => .ok v next
      | .error cause => .error cause next
    else
      match s.step options t with
      | .error cause => .error cause next
      | .ok s =>
        have : next.pending.length < cur.pending.length := Token.length_pending_scan_lt h ht
        run options s next
termination_by cur.pending.length

/-- The document that a lexer reads from a state on. -/
def ReadState.runLexer {σ : Type} [CharSource σ] (options : ReadOptions) (s : ReadState)
    (l : Lexer σ) : EStateM.Result Cause (Lexer σ) Value :=
  match h : Lexer.scan l with
  | .error cause next => .error cause next
  | .ok t next =>
    if ht : t = .endOfInput then
      match s.atEnd with
      | .ok v => .ok v next
      | .error cause => .error cause next
    else
      match s.step options t with
      | .error cause => .error cause next
      | .ok s =>
        have : next.size < l.size := Lexer.size_scan_lt h ht
        runLexer options s next
termination_by l.size

namespace Document

/-- The options that set no limit. -/
def unlimited (order : MemberOrder) : ReadOptions := ⟨order, none⟩

/-- The document in the answers of a source, with the place where reading it stopped. -/
def read (options : ReadOptions) (answers : List Answer) : EStateM.Result Cause Cursor Value :=
  ReadState.start.run options (.start answers)

/-- The document in a source, with the lexer where reading it stopped. -/
def readLexer {σ : Type} [CharSource σ] (options : ReadOptions) (source : σ) :
    EStateM.Result Cause (Lexer σ) Value :=
  ReadState.start.runLexer options (.new source)

/-- The value of a run, or its error with the place. -/
def result {α : Type} : EStateM.Result Cause Cursor α → Except ParseError α
  | .ok v _ => .ok v
  | .error cause cur => .error ⟨cause, cur.offset⟩

/-- The value that a lexer has read, or the error with the place. -/
def resultLexer {σ α : Type} : EStateM.Result Cause (Lexer σ) α → Except ParseError α
  | .ok v _ => .ok v
  | .error cause l => .error ⟨cause, l.offset⟩

/-- The document in a source. -/
def parseSource {σ : Type} [CharSource σ] (options : ReadOptions) (source : σ) :
    Except ParseError Value :=
  result (read options (CharSource.answers source))

/-- The document that a text is. -/
def parse (order : MemberOrder) (text : String) : Except ParseError Value :=
  parseSource (unlimited order) text.toList

/-- The document that bytes of UTF-8 are. -/
def parseUtf8 (order : MemberOrder) (bytes : List UInt8) : Except ParseError Value :=
  parseSource (unlimited order) bytes

/-- The document that the bytes of UTF-8 before the first zero are. -/
def parseNulTerminated (order : MemberOrder) (bytes : List UInt8) : Except ParseError Value :=
  parseUtf8 order (untilNul bytes)

/-- The document that a string of UTF-8 is that a zero ends. -/
def parseCString (order : MemberOrder) (s : CString) : Except ParseError Value :=
  parseUtf8 order s.bytes

/-- The document that code units of UTF-16 are. -/
def parseUtf16 (order : MemberOrder) (units : List UInt16) : Except ParseError Value :=
  parseSource (unlimited order) units

/-- The document that a reader gives, read again whenever it is interrupted. -/
def parseReader (order : MemberOrder) (events : List ReadEvent) : Except ParseError Value :=
  parseSource (unlimited order) (⟨events⟩ : RetryingReader)

end Document

end JsonDoc
