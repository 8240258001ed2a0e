import TypeConformance.Basic

/-! # Reports

A diagnostic carries its code, its message, the arguments the message was made from, labelled
places and notes. Its first label is the place it is about: a span of source text, from a start
offset up to an end offset. Each code has a message template with numbered placeholders. Arguments
are put in one after another, each over the whole message so far; texts are searched from the left,
and occurrences do not overlap.

The queue refuses errors beyond a limit, errors that only follow from an earlier one, and
repetitions, tested in this order. A flush gives what it holds in the order of places and starts
anew; if the limit refused something, a notice ends the list.
-/
namespace TypeConformance

namespace Text

def occursIn (pattern : List Char) : List Char → Bool
  | [] => pattern.isEmpty
  | c :: rest => pattern.isPrefixOf (c :: rest) || occursIn pattern rest

/-- Replacement in progress: the first argument counts the characters of an occurrence that
are still to be passed over. -/
def replaceFrom (pattern new : List Char) : Nat → List Char → List Char
  | _, [] => []
  | skip + 1, _ :: rest => replaceFrom pattern new skip rest
  | 0, c :: rest =>
    if pattern.isPrefixOf (c :: rest) then
      new ++ replaceFrom pattern new (pattern.length - 1) rest
    else c :: replaceFrom pattern new 0 rest

/-- The text with every occurrence of a nonempty `pattern` replaced by `new`. The inserted
text is not searched again. -/
def replace (pattern new text : List Char) : List Char := replaceFrom pattern new 0 text

end Text

structure Span where
  start : Nat
  stop : Nat
  deriving DecidableEq, Repr

inductive SpanError where
  | startTooLarge (offset : Nat)
  | endTooLarge (offset : Nat)
  deriving DecidableEq, Repr

def SpanError.message : SpanError → String
  | startTooLarge offset => s!"span start {offset} exceeds u32::MAX"
  | endTooLarge offset => s!"span end {offset} exceeds u32::MAX"

namespace Span

def maxOffset : Nat := 4294967295

def dummy : Span := ⟨0, 0⟩

def ofRange (start stop : Nat) : Except SpanError Span :=
  if maxOffset < start then .error (.startTooLarge start)
  else if maxOffset < stop then .error (.endTooLarge stop)
  else .ok ⟨start, stop⟩

def isEmpty (s : Span) : Bool := s.start == s.stop

def length (s : Span) : Except Fault Nat :=
  if s.stop < s.start then .error .negativeLength else .ok (s.stop - s.start)

def merge (a b : Span) : Span := ⟨min a.start b.start, max a.stop b.stop⟩

def text (s : Span) : String := s!"{s.start}..{s.stop}"

end Span

inductive Code where
  | e2001 | e2002 | e2003 | e2005 | e2006 | e2007 | e9002 | w2001
  deriving DecidableEq, Repr

namespace Code

def text : Code → String
  | e2001 => "E2001" | e2002 => "E2002" | e2003 => "E2003" | e2005 => "E2005"
  | e2006 => "E2006" | e2007 => "E2007" | e9002 => "E9002" | w2001 => "W2001"

def all : List Code := [e2001, e2002, e2003, e2005, e2006, e2007, e9002, w2001]

def template : Code → String
  | e2001 => "incompatible types: expected '\x7b0\x7d', found '\x7b1\x7d'"
  | e2002 => "incompatible types: '\x7b0\x7d' cannot be cast to '\x7b1\x7d'"
  | e2003 => "incompatible types: '\x7b0\x7d' cannot be converted to '\x7b1\x7d'"
  | e2005 => "incompatible types: '\x7b0\x7d' cannot be used as a json constraint"
  | e2006 => "incompatible argument type: expected '\x7b0\x7d', found '\x7b1\x7d'"
  | e2007 => "incompatible return type: expected '\x7b0\x7d', found '\x7b1\x7d'"
  | e9002 => "aborting due to \x7b0\x7d previous errors"
  | w2001 => "unsafe cast from '\x7b0\x7d' to '\x7b1\x7d' is checked at run time"

def isWarning : Code → Bool
  | w2001 => true
  | _ => false

def placeholder (i : Nat) : List Char := '\x7b' :: (Nat.repr i).toList ++ ['\x7d']

/-- Puts in the arguments from number `i` on. A placeholder that an earlier argument brought
along is filled by a later one. -/
def fill (message : List Char) : Nat → List String → List Char
  | _, [] => message
  | i, arg :: rest => fill (Text.replace (placeholder i) arg.toList message) (i + 1) rest

def render (c : Code) (args : List String) : String :=
  String.ofList (fill c.template.toList 0 args)

end Code

inductive Severity where
  | error | warning
  deriving DecidableEq, Repr

def Severity.text : Severity → String
  | error => "error"
  | warning => "warning"

structure Label where
  span : Span
  message : String
  deriving DecidableEq, Repr

def Label.text (l : Label) : String :=
  "\n  --> " ++ l.span.text ++ (if l.message.isEmpty then "" else ": " ++ l.message)

structure Diagnostic where
  code : Code
  severity : Severity
  message : String := ""
  args : List String := []
  labels : List Label := []
  notes : List String := []
  deriving DecidableEq, Repr

namespace Diagnostic

def ofTemplate (code : Code) (span : Span) (args : List String) : Diagnostic where
  code
  severity := if code.isWarning then .warning else .error
  message := code.render args
  args
  labels := [⟨span, ""⟩]

def withLabel (d : Diagnostic) (label : Label) : Diagnostic :=
  { d with labels := d.labels ++ [label] }

def withNote (d : Diagnostic) (note : String) : Diagnostic :=
  { d with notes := d.notes ++ [note] }

def isError (d : Diagnostic) : Bool := d.severity == .error

def primarySpan (d : Diagnostic) : Option Span := d.labels.head?.map Label.span

/-- Where the diagnostic stands in the source; without a label, at the beginning. -/
def position (d : Diagnostic) : Nat := (d.primarySpan.map Span.start).getD 0

def text (d : Diagnostic) : String :=
  d.severity.text ++ " [" ++ d.code.text ++ "]: " ++ d.message ++
    String.join (d.labels.map Label.text) ++
    String.join (d.notes.map ("\n  = note: " ++ ·))

def tooManyErrors (limit : Nat) (span : Span) : Diagnostic :=
  (ofTemplate .e9002 span [Nat.repr limit]).withNote
    "raise `DiagnosticConfig::error_limit` to see more"

end Diagnostic

structure QueuePolicy where
  /-- Zero stands for no limit. -/
  errorLimit : Nat := 10
  filterFollowOn : Bool := true
  deduplicate : Bool := true
  deriving DecidableEq, Repr

def QueuePolicy.unlimited : QueuePolicy := ⟨0, false, false⟩

structure Queue where
  policy : QueuePolicy := {}
  /-- What is held, oldest first, each with its place. -/
  held : List (Nat × Diagnostic) := []
  errorCount : Nat := 0
  overflowed : Bool := false
  deriving DecidableEq, Repr

def errorMarker : String := "<error>"

/-- An error that mentions the type of an erroneous expression. -/
def Diagnostic.isFollowOn (d : Diagnostic) : Bool :=
  d.isError &&
    (Text.occursIn errorMarker.toList d.message.toList || d.args.any (· == errorMarker))

def Diagnostic.repeats (d earlier : Diagnostic) : Bool :=
  earlier.code == d.code && earlier.primarySpan == d.primarySpan && earlier.message == d.message

namespace Queue

def limitReached (q : Queue) : Bool :=
  decide (0 < q.policy.errorLimit) && decide (q.policy.errorLimit ≤ q.errorCount)

def hasErrors (q : Queue) : Bool := decide (0 < q.errorCount)

def isDuplicate (q : Queue) (d : Diagnostic) : Bool := q.held.any fun e => d.repeats e.2

/-- Offers a diagnostic; the answer says whether the queue took it. -/
def add (q : Queue) (d : Diagnostic) : Bool × Queue :=
  if d.isError && q.limitReached then (false, { q with overflowed := true })
  else if q.policy.filterFollowOn && d.isFollowOn then (false, q)
  else if q.policy.deduplicate && q.isDuplicate d then (false, q)
  else (true, { q with
    held := q.held ++ [(d.position, d)]
    errorCount := if d.isError then q.errorCount + 1 else q.errorCount })

def emit (q : Queue) (d : Diagnostic) : Queue := (q.add d).2

def emitAll (q : Queue) (ds : List Diagnostic) : Queue := ds.foldl emit q

def toList (q : Queue) : List Diagnostic := q.held.map Prod.snd

def insertByPosition (e : Nat × Diagnostic) : List (Nat × Diagnostic) → List (Nat × Diagnostic)
  | [] => [e]
  | next :: rest => if e.1 ≤ next.1 then e :: next :: rest else next :: insertByPosition e rest

/-- Entries by place; entries of one place keep their order. -/
def sortByPosition (es : List (Nat × Diagnostic)) : List (Nat × Diagnostic) :=
  es.foldr insertByPosition []

def flush (q : Queue) : List Diagnostic × Queue :=
  let sorted := (sortByPosition q.held).map Prod.snd
  let notice :=
    if q.overflowed then
      let span := (sorted.getLast?.bind Diagnostic.primarySpan).getD Span.dummy
      [Diagnostic.tooManyErrors q.policy.errorLimit span]
    else []
  (sorted ++ notice, { policy := q.policy })

end Queue

end TypeConformance
