/-
Writing a listing to whatever takes its bytes.

A listing is written piece by piece, a line and then a line end, and each piece is offered until
all of it is accepted.  Where the pieces end makes no difference to what is accepted in the end.
A sink stops at the first of its answers that fails, and accepts until then as many bytes as its
answers before have room for; `Sink.stop?` finds this room and the text of the failure.  So the
bytes are accepted up to that room:

* `Sink.deliver_of_fits` and `Sink.deliver_of_stops` say this of one piece, and
  `Sink.deliverAll_of_fits` and `Sink.deliverAll_of_stops` of all pieces;
* `Listing.writeTo_of_fits` and `Listing.writeTo_of_stops` say what becomes of a listing.

A sink is a list of answers, and a writer is anything that answers one offer after another: a
state, and for every state and all bytes that it is offered an answer and the next state.  It may
accept any number of the bytes that it is offered, but at least one; accepting none of them is the
answer `refuse`.  The answers that a writer has given in the end are a sink, and what the writer has
accepted is what this sink accepts (`Writer.ServedAll.writeTo_eq`).  A writer that is not
interrupted for ever comes to an end (`Writer.exists_servedAll`).
-/
import Accumulator.Sink
import Mathlib.Tactic.Lemma

namespace Accumulator

/-- The text with which an answer ends the writing, if it ends it. -/
def Answer.fault? : Answer → Option String
  | accept _ | interrupted => none
  | refuse => some Sink.refusal
  | fail text => some text

/-! ## Where a sink stops -/

namespace Sink

/-- How many bytes a sink accepts before its first failing answer, and the text of this answer;
nothing, if no answer fails. -/
def stop? : List Answer → Option (Nat × String)
  | [] => none
  | .accept count :: answers => (stop? answers).map fun (room, text) => (count + room, text)
  | .interrupted :: answers => stop? answers
  | .refuse :: _ => some (0, refusal)
  | .fail text :: _ => some (0, text)

/-- So many bytes are accepted before an answer fails. -/
def Fits (answers : List Answer) (length : Nat) : Prop :=
  ∀ room text, stop? answers = some (room, text) → length ≤ room

variable {answers : List Answer} {bytes : List UInt8} {pieces : List (List UInt8)}
  {count length room : Nat} {text : String}

/-- A sink stops with the text of its first failing answer. -/
lemma map_snd_stop? (answers : List Answer) :
    (stop? answers).map Prod.snd = answers.findSome? Answer.fault? := by
  induction answers with
  | nil => rfl
  | cons answer answers ih =>
    cases answer with
    | accept count =>
      rw [stop?, Option.map_map]
      exact ih
    | interrupted => exact ih
    | refuse | fail => rfl

lemma stop?_accept_eq_some_iff :
    stop? (.accept count :: answers) = some (room, text) ↔
      ∃ rest, stop? answers = some (rest, text) ∧ room = count + rest := by
  simp only [stop?, Option.map_eq_some_iff, Prod.exists, Prod.mk.injEq]
  constructor
  · rintro ⟨rest, _, hstop, rfl, rfl⟩
    exact ⟨rest, hstop, rfl⟩
  · rintro ⟨rest, hstop, rfl⟩
    exact ⟨rest, text, hstop, rfl, rfl⟩

lemma Fits.of_accept (h : Fits (.accept count :: answers) length) :
    Fits answers (length - count) := by
  intro room text hstop
  have hle := h (count + room) text (stop?_accept_eq_some_iff.mpr ⟨room, hstop, rfl⟩)
  omega

lemma fits_of_stop? (hstop : stop? answers = some (room, text)) (hle : length ≤ room) :
    Fits answers length := by
  intro room' text' hstop'
  rw [hstop] at hstop'
  obtain ⟨rfl, -⟩ := Prod.mk.inj (Option.some.inj hstop')
  exact hle

lemma fits_or_stops (answers : List Answer) (length : Nat) :
    Fits answers length ∨ ∃ room text, stop? answers = some (room, text) ∧ room < length := by
  by_cases h : ∃ room text, stop? answers = some (room, text) ∧ room < length
  · exact .inr h
  · exact .inl fun room text hstop => Nat.le_of_not_lt fun hlt => h ⟨room, text, hstop, hlt⟩

lemma Fits.eq_nil (h : Fits answers bytes.length) (hstop : stop? answers = some (0, text)) :
    bytes = [] :=
  List.eq_nil_of_length_eq_zero (Nat.le_zero.mp (h 0 text hstop))

lemma Fits.mono (h : Fits answers length) (hle : count ≤ length) : Fits answers count :=
  fun room text hstop => Nat.le_trans hle (h room text hstop)

/-- Bytes that fit are accepted, and leave so much less room. -/
lemma deliver_of_fits (h : Fits answers bytes.length) :
    (deliver answers bytes).accepted = bytes ∧ (deliver answers bytes).fault = none ∧
      stop? (deliver answers bytes).answers
        = (stop? answers).map fun stop => (stop.1 - bytes.length, stop.2) := by
  fun_induction deliver answers bytes with
  | case1 answers => simp
  | case2 bytes => exact ⟨rfl, rfl, rfl⟩
  | case3 count answers bytes hbytes hle =>
    refine ⟨rfl, rfl, ?_⟩
    simp only [stop?, Option.map_map]
    congr 1
    funext stop
    show (count - bytes.length + stop.1, stop.2) = (count + stop.1 - bytes.length, stop.2)
    rw [Nat.sub_add_comm hle]
  | case4 count answers bytes hbytes hlt rest ih =>
    have hfits : Fits answers (bytes.drop count).length := by
      rw [List.length_drop]
      exact h.of_accept
    obtain ⟨haccepted, hfault, hstop⟩ := ih hfits
    refine ⟨?_, hfault, ?_⟩
    · show bytes.take count ++ rest.accepted = bytes
      rw [haccepted, List.take_append_drop]
    · rw [hstop, stop?, Option.map_map, List.length_drop]
      congr 1
      funext stop
      show (stop.1 - (bytes.length - count), stop.2) = (count + stop.1 - bytes.length, stop.2)
      congr 1
      omega
  | case5 answers bytes hbytes ih => exact ih h
  | case6 answers bytes hbytes => exact absurd (h.eq_nil rfl) hbytes
  | case7 text answers bytes hbytes => exact absurd (h.eq_nil rfl) hbytes

/-- Of more bytes than a sink has room for, it accepts the first. -/
lemma deliver_of_stops (hstop : stop? answers = some (room, text)) (hlt : room < bytes.length) :
    (deliver answers bytes).accepted = bytes.take room ∧
      (deliver answers bytes).fault = some text := by
  fun_induction deliver answers bytes generalizing room with
  | case1 answers => exact absurd hlt (Nat.not_lt_zero room)
  | case2 bytes => exact absurd hstop (by simp [stop?])
  | case3 count answers bytes hbytes hle =>
    obtain ⟨rest, -, rfl⟩ := stop?_accept_eq_some_iff.mp hstop
    omega
  | case4 count answers bytes hbytes hle rest =>
    rename_i ih
    obtain ⟨later, hlater, rfl⟩ := stop?_accept_eq_some_iff.mp hstop
    have hfewer : later < (bytes.drop count).length := by
      rw [List.length_drop]
      omega
    obtain ⟨haccepted, hfault⟩ := ih hlater hfewer
    refine ⟨?_, hfault⟩
    show bytes.take count ++ rest.accepted = bytes.take (count + later)
    rw [haccepted, ← List.take_add]
  | case5 answers bytes hbytes ih => exact ih hstop hlt
  | case6 | case7 =>
    obtain ⟨rfl, rfl⟩ := Prod.mk.inj (Option.some.inj hstop)
    exact ⟨rfl, rfl⟩

/-- Pieces that fit are accepted, wherever they end. -/
lemma deliverAll_of_fits (h : Fits answers pieces.flatten.length) :
    (deliverAll answers pieces).accepted = pieces.flatten ∧
      (deliverAll answers pieces).fault = none := by
  induction pieces generalizing answers with
  | nil => exact ⟨rfl, rfl⟩
  | cons piece pieces ih =>
    rw [List.flatten_cons, List.length_append] at h
    obtain ⟨haccepted, hfault, hstop⟩ := deliver_of_fits (h.mono (Nat.le_add_right _ _))
    have hrest : Fits (deliver answers piece).answers pieces.flatten.length := by
      intro room text hroom
      rw [hstop, Option.map_eq_some_iff] at hroom
      obtain ⟨⟨whole, _⟩, hwhole, hroom⟩ := hroom
      obtain ⟨rfl, rfl⟩ := Prod.mk.inj hroom
      have hle := h whole _ hwhole
      show pieces.flatten.length ≤ whole - piece.length
      omega
    obtain ⟨haccepteds, hfaults⟩ := ih hrest
    simp only [deliverAll, hfault, haccepted, haccepteds, hfaults, List.flatten_cons]
    exact ⟨trivial, trivial⟩

/-- Of pieces with more bytes than a sink has room for, it accepts the first bytes. -/
lemma deliverAll_of_stops (hstop : stop? answers = some (room, text))
    (hlt : room < pieces.flatten.length) :
    (deliverAll answers pieces).accepted = pieces.flatten.take room ∧
      (deliverAll answers pieces).fault = some text := by
  induction pieces generalizing answers room with
  | nil => exact absurd hlt (Nat.not_lt_zero room)
  | cons piece pieces ih =>
    rw [List.flatten_cons, List.length_append] at hlt
    by_cases hpiece : room < piece.length
    · -- the sink stops in this piece
      obtain ⟨haccepted, hfault⟩ := deliver_of_stops hstop hpiece
      simp only [deliverAll, hfault, haccepted, List.flatten_cons]
      exact ⟨(List.take_append_of_le_length (Nat.le_of_lt hpiece)).symm, trivial⟩
    · have hfits := fits_of_stop? hstop (Nat.le_of_not_lt hpiece)
      obtain ⟨haccepted, hfault, hrest⟩ := deliver_of_fits hfits
      rw [hstop] at hrest
      have hfewer : room - piece.length < pieces.flatten.length := by omega
      obtain ⟨haccepteds, hfaults⟩ := ih hrest hfewer
      simp only [deliverAll, hfault, haccepted, haccepteds, hfaults, List.flatten_cons]
      refine ⟨?_, trivial⟩
      rw [List.take_append, List.take_of_length_le (Nat.le_of_not_lt hpiece)]

end Sink

/-! ## Listings -/

/-- What is left behind when so many bytes were accepted: a fault that ended the writing, or a
flush. -/
def Receipt.of (accepted : List UInt8) (fault flushFault : Option String) : Receipt :=
  match fault with
  | some text => { accepted, flushes := 0, result := .error (.io text) }
  | none =>
    { accepted
      flushes := 1
      result :=
        match flushFault with
        | some text => .error (.io text)
        | none => .ok () }

namespace Listing

variable {listing : Listing} {sink : Sink} {room : Nat} {text : String}

/-- The pieces of a listing make up its text. -/
lemma flatten_pieces (listing : Listing) :
    (listing.pieces.map bytesOf).flatten = bytesOf listing.text := by
  have hpieces (pieces : List String) :
      (pieces.map bytesOf).flatten = bytesOf (pieces.foldr (· ++ ·) "") := by
    induction pieces with
    | nil => rfl
    | cons piece pieces ih =>
      rw [List.map_cons, List.flatten_cons, ih, List.foldr_cons, bytesOf_append]
  exact hpieces listing.pieces

lemma writeTo_eq (listing : Listing) (sink : Sink) :
    listing.writeTo sink =
      .of (Sink.deliverAll sink.answers (listing.pieces.map bytesOf)).accepted
        (Sink.deliverAll sink.answers (listing.pieces.map bytesOf)).fault sink.flushFault :=
  rfl

/-- A listing that fits is accepted, and the sink is flushed. -/
lemma writeTo_of_fits (h : Sink.Fits sink.answers (bytesOf listing.text).length) :
    listing.writeTo sink = .of (bytesOf listing.text) none sink.flushFault := by
  rw [← flatten_pieces] at h
  obtain ⟨haccepted, hfault⟩ := Sink.deliverAll_of_fits h
  rw [writeTo_eq, haccepted, hfault, flatten_pieces]

/-- Of a listing that does not fit the first bytes are accepted, and the sink is not flushed. -/
lemma writeTo_of_stops (hstop : Sink.stop? sink.answers = some (room, text))
    (hlt : room < (bytesOf listing.text).length) :
    listing.writeTo sink = .of ((bytesOf listing.text).take room) (some text) sink.flushFault := by
  rw [← flatten_pieces] at hlt
  obtain ⟨haccepted, hfault⟩ := Sink.deliverAll_of_stops hstop hlt
  rw [writeTo_eq, haccepted, hfault, flatten_pieces]

end Listing

/-- A receipt tells exactly what became of the bytes, the first failing write and the flush being
given by their texts. -/
structure Receipt.Exact (receipt : Receipt) (bytes : List UInt8)
    (writeFault flushFault : Option String) : Prop where
  /-- What was accepted is the beginning of the bytes. -/
  accepted_prefix : receipt.accepted <+: bytes
  /-- There was one flush if all bytes were accepted, and none else. -/
  flushes_eq : receipt.flushes = if receipt.accepted = bytes then 1 else 0
  /-- Success means that all bytes were accepted and the flush succeeded. -/
  ok_iff : receipt.result = .ok () ↔ receipt.accepted = bytes ∧ flushFault = none
  /-- A fault is that of the first failing write or, after all bytes, that of the flush. -/
  error_iff : ∀ e, receipt.result = .error e ↔ ∃ text, e = .io text ∧
    (receipt.accepted ≠ bytes ∧ writeFault = some text ∨
      receipt.accepted = bytes ∧ flushFault = some text)

lemma Receipt.exact_of_complete (bytes : List UInt8) (writeFault flushFault : Option String) :
    (Receipt.of bytes none flushFault).Exact bytes writeFault flushFault := by
  cases flushFault with
  | none => exact ⟨List.prefix_rfl, by simp [of], by simp [of], by simp [of]⟩
  | some text =>
    refine ⟨List.prefix_rfl, by simp [of], by simp [of], fun e => ?_⟩
    simp [of, eq_comm]

lemma Receipt.exact_of_cut {bytes : List UInt8} {room : Nat} (hlt : room < bytes.length)
    (text : String) (flushFault : Option String) :
    (Receipt.of (bytes.take room) (some text) flushFault).Exact bytes (some text) flushFault := by
  have hne : bytes.take room ≠ bytes := by
    intro heq
    have hlength := congrArg List.length heq
    rw [List.length_take] at hlength
    omega
  refine ⟨List.take_prefix room bytes, by simp [of, hne], by simp [of, hne], fun e => ?_⟩
  simp [of, hne, eq_comm]

/-- The receipt of a listing is exact. -/
lemma Listing.exact_writeTo (listing : Listing) (sink : Sink) :
    (listing.writeTo sink).Exact (bytesOf listing.text)
      (sink.answers.findSome? Answer.fault?) sink.flushFault := by
  rw [← Sink.map_snd_stop?]
  rcases Sink.fits_or_stops sink.answers (bytesOf listing.text).length with
    hfits | ⟨room, text, hstop, hlt⟩
  · rw [writeTo_of_fits hfits]
    exact Receipt.exact_of_complete _ _ _
  · rw [writeTo_of_stops hstop hlt, hstop]
    exact Receipt.exact_of_cut hlt text _

/-! ## Writers -/

/-- A writer, by what it does in each of its states. -/
structure Writer (σ : Type) where
  /-- The answer to the bytes that are offered, and the next state. -/
  write : σ → List UInt8 → Answer × σ
  /-- The text with which flushing fails, if it fails. -/
  flush : σ → Option String
  /-- If bytes are accepted, they are some of the bytes that are offered. -/
  accept_bounds : ∀ {s next : σ} {bytes : List UInt8} {count : Nat}, bytes ≠ [] →
    write s bytes = (.accept count, next) → 0 < count ∧ count ≤ bytes.length
  /-- An offer that is made again and again is not interrupted for ever. -/
  interrupted_ends : ∀ bytes s, Acc (fun next s => write s bytes = (.interrupted, next)) s

/-- Bytes that were offered, and the answer. -/
structure Offer where
  bytes : List UInt8
  answer : Answer
deriving DecidableEq, Repr

namespace Offer

/-- The bytes that were accepted. -/
def accepted (offer : Offer) : List UInt8 :=
  match offer.answer with
  | .accept count => offer.bytes.take count
  | _ => []

/-- The text with which the offer ended the writing, if it ended it. -/
def fault? (offer : Offer) : Option String := offer.answer.fault?

end Offer

namespace Writer

variable {σ : Type} {w : Writer σ} {s t : σ} {bytes : List UInt8} {pieces : List (List UInt8)}
  {offers : List Offer}

/-- From the first state to the second, a writer was offered bytes until all of them were accepted
or it failed. -/
inductive Served (w : Writer σ) : σ → List UInt8 → List Offer → σ → Prop where
  | done (s : σ) : Served w s [] [] s
  | accept {s next t : σ} {bytes : List UInt8} {count : Nat} {offers : List Offer}
    (hbytes : bytes ≠ []) (hwrite : w.write s bytes = (.accept count, next))
    (hrest : Served w next (bytes.drop count) offers t) :
    Served w s bytes (⟨bytes, .accept count⟩ :: offers) t
  | interrupted {s next t : σ} {bytes : List UInt8} {offers : List Offer}
    (hbytes : bytes ≠ []) (hwrite : w.write s bytes = (.interrupted, next))
    (hrest : Served w next bytes offers t) :
    Served w s bytes (⟨bytes, .interrupted⟩ :: offers) t
  | failing {s t : σ} {bytes : List UInt8} {answer : Answer} {text : String}
    (hbytes : bytes ≠ []) (hwrite : w.write s bytes = (answer, t))
    (hfault : answer.fault? = some text) :
    Served w s bytes [⟨bytes, answer⟩] t

/-- From the first state to the second, a writer was offered pieces one after another, up to the
first failure. -/
inductive ServedAll (w : Writer σ) : σ → List (List UInt8) → List Offer → σ → Prop where
  | done (s : σ) : ServedAll w s [] [] s
  | next {s r t : σ} {piece : List UInt8} {pieces : List (List UInt8)} {offers more : List Offer}
    (hpiece : Served w s piece offers r) (hfault : offers.findSome? Offer.fault? = none)
    (hrest : ServedAll w r pieces more t) :
    ServedAll w s (piece :: pieces) (offers ++ more) t
  | failing {s t : σ} {piece : List UInt8} {pieces : List (List UInt8)} {offers : List Offer}
    {text : String} (hpiece : Served w s piece offers t)
    (hfault : offers.findSome? Offer.fault? = some text) :
    ServedAll w s (piece :: pieces) offers t

/-! ### A writer comes to an end -/

lemma exists_served (w : Writer σ) (s : σ) (bytes : List UInt8) :
    ∃ offers t, w.Served s bytes offers t := by
  induction hlength : bytes.length using Nat.strongRecOn generalizing bytes s with
  | _ length ihlength =>
    -- accepted bytes make the offer shorter, and an interruption keeps it
    induction w.interrupted_ends bytes s with
    | intro s _ ih =>
      by_cases hbytes : bytes = []
      · subst hbytes
        exact ⟨[], s, .done s⟩
      rcases hwrite : w.write s bytes with ⟨answer, next⟩
      cases answer with
      | accept count =>
        obtain ⟨hpos, hle⟩ := w.accept_bounds hbytes hwrite
        have hshorter : (bytes.drop count).length < length := by
          rw [List.length_drop]
          omega
        obtain ⟨offers, t, hrest⟩ := ihlength _ hshorter next _ rfl
        exact ⟨_, t, .accept hbytes hwrite hrest⟩
      | interrupted =>
        obtain ⟨offers, t, hrest⟩ := ih next hwrite
        exact ⟨_, t, .interrupted hbytes hwrite hrest⟩
      | refuse | fail => exact ⟨_, next, .failing hbytes hwrite rfl⟩

/-- Every writer comes to an end with a listing. -/
lemma exists_servedAll (w : Writer σ) (s : σ) (pieces : List (List UInt8)) :
    ∃ offers t, w.ServedAll s pieces offers t := by
  induction pieces generalizing s with
  | nil => exact ⟨[], s, .done s⟩
  | cons piece pieces ih =>
    obtain ⟨offers, r, hpiece⟩ := w.exists_served s piece
    cases hfault : offers.findSome? Offer.fault? with
    | none =>
      obtain ⟨more, t, hrest⟩ := ih r
      exact ⟨offers ++ more, t, .next hpiece hfault hrest⟩
    | some text => exact ⟨offers, r, .failing hpiece hfault⟩

/-! ### A writer accepts what the sink of its answers accepts -/

lemma length_accepted {next : σ} {count : Nat} (hbytes : bytes ≠ [])
    (hwrite : w.write s bytes = (.accept count, next)) :
    (Offer.accepted ⟨bytes, .accept count⟩).length = count :=
  List.length_take_of_le (w.accept_bounds hbytes hwrite).2

/-- A writer accepts the beginning of the bytes, and all of them unless it fails. -/
lemma Served.exists_rest (h : w.Served s bytes offers t) :
    ∃ rest, offers.flatMap Offer.accepted ++ rest = bytes ∧
      (offers.findSome? Offer.fault? = none ↔ rest = []) := by
  induction h with
  | done s => exact ⟨[], rfl, by simp⟩
  | @accept s next t bytes count offers hbytes hwrite hrest ih =>
    obtain ⟨rest, heq, hiff⟩ := ih
    refine ⟨rest, ?_, hiff⟩
    rw [List.flatMap_cons, List.append_assoc, heq]
    exact List.take_append_drop count bytes
  | interrupted hbytes hwrite hrest ih => exact ih
  | @failing s t bytes answer text hbytes hwrite hfault =>
    refine ⟨bytes, ?_, ?_⟩
    · cases answer <;> simp_all [Answer.fault?, Offer.accepted]
    · simp [Offer.fault?, hfault, hbytes]

/-- The answers of a writer make room for what it has accepted, and then go on. -/
lemma Served.stop?_append (h : w.Served s bytes offers t) (later : List Answer) :
    Sink.stop? (offers.map Offer.answer ++ later) =
      match offers.findSome? Offer.fault? with
      | some text => some ((offers.flatMap Offer.accepted).length, text)
      | none => (Sink.stop? later).map fun (room, text) =>
          ((offers.flatMap Offer.accepted).length + room, text) := by
  induction h with
  | done s => simp
  | @accept s next t bytes count offers hbytes hwrite hrest ih =>
    rw [List.map_cons, List.cons_append, Sink.stop?, ih, List.flatMap_cons, List.length_append,
      length_accepted hbytes hwrite]
    show _ = match offers.findSome? Offer.fault? with
      | some text => _
      | none => _
    cases offers.findSome? Offer.fault? with
    | none =>
      simp only [Option.map_map]
      congr 1
      funext stop
      exact congrArg (·, stop.2) (Nat.add_assoc _ _ _).symm
    | some text => rfl
  | interrupted hbytes hwrite hrest ih => exact ih
  | @failing s t bytes answer text hbytes hwrite hfault =>
    cases answer with
    | accept | interrupted => exact absurd hfault (by simp [Answer.fault?])
    | refuse | fail => rfl

lemma ServedAll.exists_rest (h : w.ServedAll s pieces offers t) :
    ∃ rest, offers.flatMap Offer.accepted ++ rest = pieces.flatten ∧
      (offers.findSome? Offer.fault? = none ↔ rest = []) := by
  induction h with
  | done s => exact ⟨[], rfl, by simp⟩
  | @next s r t piece pieces offers more hpiece hfault hrest ih =>
    obtain ⟨rest, heq, hiff⟩ := hpiece.exists_rest
    obtain rfl := hiff.mp hfault
    obtain ⟨rest, heqs, hiffs⟩ := ih
    refine ⟨rest, ?_, ?_⟩
    · rw [List.flatMap_append, List.append_assoc, heqs, List.flatten_cons, ← heq, List.append_nil]
    · rw [List.findSome?_append, hfault]
      exact hiffs
  | @failing s t piece pieces offers text hpiece hfault =>
    obtain ⟨rest, heq, hiff⟩ := hpiece.exists_rest
    refine ⟨rest ++ pieces.flatten, ?_, ?_⟩
    · rw [← List.append_assoc, heq, List.flatten_cons]
    · rw [List.append_eq_nil_iff, ← hiff, hfault]
      simp

lemma ServedAll.stop?_eq (h : w.ServedAll s pieces offers t) :
    Sink.stop? (offers.map Offer.answer) =
      (offers.findSome? Offer.fault?).map fun text =>
        ((offers.flatMap Offer.accepted).length, text) := by
  induction h with
  | done s => rfl
  | @next s r t piece pieces offers more hpiece hfault hrest ih =>
    rw [List.map_append, hpiece.stop?_append, hfault, ih, List.findSome?_append, hfault,
      List.flatMap_append, List.length_append]
    simp [Option.map_map, Function.comp_def]
  | @failing s t piece pieces offers text hpiece hfault =>
    have hstop := hpiece.stop?_append []
    rw [List.append_nil, hfault] at hstop
    rw [hstop, hfault]
    rfl

/-- A listing that is written to a writer is written to the sink of the writer's answers. -/
lemma ServedAll.writeTo_eq {listing : Listing}
    (h : w.ServedAll s (listing.pieces.map bytesOf) offers t) :
    listing.writeTo { answers := offers.map Offer.answer, flushFault := w.flush t } =
      .of (offers.flatMap Offer.accepted) (offers.findSome? Offer.fault?) (w.flush t) := by
  obtain ⟨rest, heq, hiff⟩ := h.exists_rest
  rw [Listing.flatten_pieces] at heq
  have hstop := h.stop?_eq
  cases hfault : offers.findSome? Offer.fault? with
  | none =>
    obtain rfl := hiff.mp hfault
    rw [hfault] at hstop
    have hfits : Sink.Fits (offers.map Offer.answer) (bytesOf listing.text).length := by
      intro room text hroom
      rw [hstop] at hroom
      exact absurd hroom (by simp)
    rw [Listing.writeTo_of_fits hfits, ← heq, List.append_nil]
  | some text =>
    rw [hfault] at hstop
    have hrest : rest ≠ [] := by
      intro hnil
      rw [hiff.mpr hnil] at hfault
      exact absurd hfault (by simp)
    have hlt : (offers.flatMap Offer.accepted).length < (bytesOf listing.text).length := by
      rw [← heq, List.length_append]
      exact Nat.lt_add_of_pos_right (List.length_pos_iff.mpr hrest)
    rw [Listing.writeTo_of_stops hstop hlt, ← heq, List.take_left]

/-! ### Writers with limited room -/

/-- A writer has room for so many bytes in each state, and fails only when no room is left. -/
def HasRoom (w : Writer σ) (room : σ → Nat) : Prop :=
  ∀ s bytes, bytes ≠ [] →
    match w.write s bytes with
    | (.accept count, next) => room s = count + room next
    | (.interrupted, next) => room s = room next
    | (.refuse, _) | (.fail _, _) => room s = 0

variable {room : σ → Nat}

/-- Accepted bytes leave less room, and a failure means that the room is filled. -/
lemma Served.room_eq (hroom : w.HasRoom room) (h : w.Served s bytes offers t) :
    room s = (offers.flatMap Offer.accepted).length
      + if offers.findSome? Offer.fault? = none then room t else 0 := by
  induction h with
  | done s => simp
  | @accept s next t bytes count offers hbytes hwrite hrest ih =>
    have hnext := hroom s bytes hbytes
    rw [hwrite] at hnext
    rw [List.flatMap_cons, List.length_append, length_accepted hbytes hwrite, Nat.add_assoc]
    exact hnext.trans (congrArg (count + ·) ih)
  | @interrupted s next t bytes offers hbytes hwrite hrest ih =>
    have hnext := hroom s bytes hbytes
    rw [hwrite] at hnext
    exact hnext.trans ih
  | @failing s t bytes answer text hbytes hwrite hfault =>
    have hfull := hroom s bytes hbytes
    rw [hwrite] at hfull
    cases answer with
    | accept | interrupted => exact absurd hfault (by simp [Answer.fault?])
    | refuse | fail => exact hfull

lemma ServedAll.room_eq (hroom : w.HasRoom room) (h : w.ServedAll s pieces offers t) :
    room s = (offers.flatMap Offer.accepted).length
      + if offers.findSome? Offer.fault? = none then room t else 0 := by
  induction h with
  | done s => simp
  | @next s r t piece pieces offers more hpiece hfault hrest ih =>
    have hfirst := hpiece.room_eq hroom
    rw [if_pos hfault] at hfirst
    rw [List.flatMap_append, List.length_append, List.findSome?_append, hfault, Option.none_or,
      Nat.add_assoc, ← ih]
    exact hfirst
  | failing hpiece hfault => exact hpiece.room_eq hroom

/-- A writer with limited room accepts the first bytes, as many as it has room for. -/
lemma ServedAll.accepted_eq_take (hroom : w.HasRoom room) (h : w.ServedAll s pieces offers t) :
    offers.flatMap Offer.accepted = pieces.flatten.take (room s) := by
  obtain ⟨rest, heq, hiff⟩ := h.exists_rest
  have hlength := h.room_eq hroom
  by_cases hfault : offers.findSome? Offer.fault? = none
  · obtain rfl := hiff.mp hfault
    rw [← heq, List.append_nil, List.take_of_length_le]
    omega
  · rw [if_neg hfault, Nat.add_zero] at hlength
    rw [hlength, ← heq, List.take_left]

end Writer

/-! ## The receipt -/

namespace Listing

/-- **What is written is a beginning of the text, and the receipt is exact.**  For every sink, that
is, for every sequence of answers: the bytes that are accepted are the first bytes of the text; the
sink is flushed once if all bytes are accepted, and not at all else; writing succeeds if all bytes
are accepted and the flush succeeds, and fails else with the text of the first failing answer or of
the flush.  A sink that accepts so many bytes in all, before an answer fails, accepts so many bytes
of the text, or all of it.

The same holds of every writer that answers one offer after another.  It comes to an end with the
listing, and has then accepted, and reports, what the sink of its answers accepts and reports. -/
theorem writeTo_exact (listing : Listing) :
    (∀ sink : Sink, (listing.writeTo sink).Exact (bytesOf listing.text)
      (sink.answers.findSome? Answer.fault?) sink.flushFault) ∧
    (∀ (sink : Sink) (limit : Nat) (text : String),
      Sink.stop? sink.answers = some (limit, text) →
        (listing.writeTo sink).accepted
          = (bytesOf listing.text).take (min limit (bytesOf listing.text).length)) ∧
    ∀ (σ : Type) (w : Writer σ) (s : σ),
      (∃ offers t, w.ServedAll s (listing.pieces.map bytesOf) offers t) ∧
      ∀ offers t, w.ServedAll s (listing.pieces.map bytesOf) offers t →
        listing.writeTo { answers := offers.map Offer.answer, flushFault := w.flush t }
          = .of (offers.flatMap Offer.accepted) (offers.findSome? Offer.fault?) (w.flush t) ∧
        (Receipt.of (offers.flatMap Offer.accepted) (offers.findSome? Offer.fault?)
          (w.flush t)).Exact (bytesOf listing.text) (offers.findSome? Offer.fault?) (w.flush t) ∧
        ∀ room, w.HasRoom room → offers.flatMap Offer.accepted
          = (bytesOf listing.text).take (min (room s) (bytesOf listing.text).length) := by
  refine ⟨listing.exact_writeTo, fun sink limit text hstop => ?_, fun σ w s => ?_⟩
  · rw [← List.take_eq_take_min]
    by_cases hlt : limit < (bytesOf listing.text).length
    · rw [writeTo_of_stops hstop hlt]
      rfl
    · have hle := Nat.le_of_not_lt hlt
      rw [writeTo_of_fits (Sink.fits_of_stop? hstop hle), List.take_of_length_le hle]
      rfl
  · refine ⟨w.exists_servedAll s _, fun offers t h => ⟨h.writeTo_eq, ?_, fun room hroom => ?_⟩⟩
    · have hexact := listing.exact_writeTo
        { answers := offers.map Offer.answer, flushFault := w.flush t }
      rw [h.writeTo_eq, List.findSome?_map] at hexact
      exact hexact
    · rw [← List.take_eq_take_min, h.accepted_eq_take hroom, flatten_pieces]

/-- The answer of a writer that takes its bytes one by one and is interrupted before each. -/
def hesitate : Nat × Bool → Answer × Nat × Bool
  | (room, true) => (.interrupted, room, false)
  | (0, false) => (.refuse, 0, false)
  | (room + 1, false) => (.accept 1, room, true)

/-- A writer that takes its bytes one by one, as long as it has room, and is interrupted before
each. -/
def hesitant : Writer (Nat × Bool) where
  write s _ := hesitate s
  flush _ := none
  accept_bounds := by
    rintro ⟨_ | room, _ | _⟩ next bytes count hbytes ⟨⟩
    exact ⟨Nat.one_pos, List.length_pos_iff.mpr hbytes⟩
  interrupted_ends := by
    intro bytes
    have hready (room : Nat) :
        Acc (fun next s => hesitate s = (.interrupted, next)) (room, false) := by
      refine ⟨_, fun next h => ?_⟩
      cases room <;> cases h
    rintro ⟨room, _ | _⟩
    · exact hready room
    · refine ⟨_, fun next h => ?_⟩
      cases h
      exact hready room

lemma hesitant_hasRoom : hesitant.HasRoom Prod.fst := by
  rintro ⟨_ | room, _ | _⟩ bytes hbytes
  · rfl
  · rfl
  · exact Nat.add_comm room 1
  · rfl

theorem writeTo_hesitant :
    Sink.stop? (Sink.limited 3 .refuse).answers = some (3, Sink.refusal) ∧
      (writeTo ⟨["é", ""]⟩ (Sink.limited 3 .refuse)).accepted = [0xC3, 0xA9, 0x0A] ∧
      ∃ offers t, hesitant.ServedAll (3, true) ((pieces ⟨["é", ""]⟩).map bytesOf) offers t ∧
        writeTo ⟨["é", ""]⟩ { answers := offers.map Offer.answer }
          = .of (offers.flatMap Offer.accepted) (offers.findSome? Offer.fault?) none ∧
        offers.flatMap Offer.accepted = [0xC3, 0xA9, 0x0A] := by
  obtain ⟨-, hlimit, hwriters⟩ := writeTo_exact ⟨["é", ""]⟩
  obtain ⟨⟨offers, t, hserved⟩, hsame⟩ := hwriters _ hesitant (3, true)
  obtain ⟨hreceipt, -, hroom⟩ := hsame offers t hserved
  refine ⟨rfl, ?_, offers, t, hserved, hreceipt, ?_⟩
  · exact (hlimit (Sink.limited 3 .refuse) 3 Sink.refusal rfl).trans (by decide)
  · exact (hroom Prod.fst hesitant_hasRoom).trans (by decide)

end Listing

end Accumulator
