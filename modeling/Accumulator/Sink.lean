/-
Writing a listing to a sink of bytes.

A listing is written piece by piece.  Each piece is offered to the sink until all of its bytes
are accepted; a sink may accept fewer bytes than it is offered, and may be interrupted, and
then the rest is offered again.  A sink that accepts nothing of what it is offered, and a sink
that fails, end the writing.  When all pieces are accepted, the sink is flushed once.

A sink is given by its answers to come.  An answer `accept n` is room for `n` bytes: one write
fills it, or several, if less is offered at a time.  When no answer is left the sink accepts
everything.
-/
import Accumulator.Program

namespace Accumulator

/-- An answer of a sink to the bytes that it is offered.  After an interruption they have to be
offered again. -/
inductive Answer where
  | accept (count : Nat)
  | interrupted
  | refuse
  | fail (text : String)
deriving DecidableEq, Repr

/-- A sink of bytes: its answers to come, after which everything is accepted, and the text with
which flushing fails, if it fails. -/
structure Sink where
  answers : List Answer := []
  flushFault : Option String := none
deriving DecidableEq, Repr, Inhabited

/-- What became of the bytes that were offered: those accepted, the answers still to come, and the
text of the failure that ended the writing, if there was one. -/
structure Delivery where
  accepted : List UInt8
  answers : List Answer
  fault : Option String
deriving DecidableEq, Repr

structure Receipt where
  accepted : List UInt8
  flushes : Nat
  result : Except Error Unit

namespace Sink

/-- A sink that has room for so many bytes and then gives a last answer. -/
def limited (limit : Nat) (last : Answer) : Sink :=
  { answers := [.accept limit, last] }

/-- The text of the failure of a write of which nothing is accepted. -/
def refusal : String := "failed to write whole buffer"

/-- Offer bytes until all of them are accepted.  No bytes are not offered at all. -/
def deliver : List Answer → List UInt8 → Delivery
  | answers, [] => { accepted := [], answers, fault := none }
  | [], bytes => { accepted := bytes, answers := [], fault := none }
  | .accept count :: answers, bytes =>
    if bytes.length ≤ count then
      { accepted := bytes, answers := .accept (count - bytes.length) :: answers, fault := none }
    else
      let rest := deliver answers (bytes.drop count)
      { rest with accepted := bytes.take count ++ rest.accepted }
  | .interrupted :: answers, bytes => deliver answers bytes
  | .refuse :: answers, _ => { accepted := [], answers, fault := some refusal }
  | .fail text :: answers, _ => { accepted := [], answers, fault := some text }

/-- Offer pieces one after another, up to the first failure. -/
def deliverAll (answers : List Answer) : List (List UInt8) → Delivery
  | [] => { accepted := [], answers, fault := none }
  | piece :: pieces =>
    let first := deliver answers piece
    match first.fault with
    | some _ => first
    | none =>
      let rest := deliverAll first.answers pieces
      { rest with accepted := first.accepted ++ rest.accepted }

end Sink

def bytesOf (text : String) : List UInt8 :=
  text.toUTF8.data.toList

@[simp] theorem bytesOf_append (x y : String) : bytesOf (x ++ y) = bytesOf x ++ bytesOf y := by
  simp [bytesOf]

/-- Write a listing to a sink, and flush the sink when all is accepted. -/
def Listing.writeTo (listing : Listing) (sink : Sink) : Receipt :=
  let delivery := Sink.deliverAll sink.answers (listing.pieces.map bytesOf)
  match delivery.fault with
  | some text => { accepted := delivery.accepted, flushes := 0, result := .error (.io text) }
  | none =>
    { accepted := delivery.accepted
      flushes := 1
      result :=
        match sink.flushFault with
        | some text => .error (.io text)
        | none => .ok () }

end Accumulator
