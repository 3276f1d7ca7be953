/-
The demos of the greatest common divisor.

Euclid's loop replaces the words `a` and `b` by `b` and the remainder of `a` by `b`, as long as
`b` is positive.  A round keeps the greatest common divisor of the two words and makes `b`
smaller, so the loop ends with the greatest common divisor in `a` and zero in `b`.

* `Demo.evaluates_round` says what one round does, and `Demo.evaluates_euclid`, by induction on
  `b`, what the loop does;
* `Node.computes_of_evaluates` carries values over to the runs of lowered code, and
  `Program.finishes_of_evaluatesAll` to the runs of a listing from one of its fragments on.

A loop has the value zero, whatever its words hold.  The demo with a conditional adds `a` to the
loop, and has the greatest common divisor as its value.  The other demo ends with the loop, so
its listing leaves the greatest common divisor in `a`, and outputs zero.
-/
import Accumulator.Demo
import Accumulator.Proofs.ListingReading
import Accumulator.Proofs.Preservation
import Mathlib.Data.Int.Basic

namespace Accumulator

/-! ## Runs to the end of the code -/

namespace Machine

/-- A run from `s` comes to the end of the code in the state `t`, with the stack as it was. -/
structure Finishes (code : List Instr) (s t : State) : Prop where
  /-- The run leads to `t`. -/
  reaches : Reaches code s t
  /-- There the code ends. -/
  pc : t.pc = code.length
  /-- The stack is as it was. -/
  stack : t.stack = s.stack

variable {code : List Instr} {s t u : State}

/-- The end of a run is determined by its beginning. -/
lemma eq_of_after {n k : Nat} (hn : after code n s = some t) (hk : after code k s = some u)
    (ht : t.pc = code.length) (hu : u.pc = code.length) : t = u := by
  induction n generalizing s k with
  | zero =>
    obtain rfl := Option.some.inj hn
    exact (eq_of_after_end ht hk).symm
  | succ n ih =>
    cases k with
    | zero =>
      obtain rfl := Option.some.inj hk
      exact eq_of_after_end hu hn
    | succ k =>
      -- both runs begin with the same step
      obtain ⟨r, hstep, hn⟩ := Option.bind_eq_some_iff.mp hn
      rw [after, hstep] at hk
      exact ih hn hk

lemma Finishes.unique (ht : Finishes code s t) (hu : Finishes code s u) : t = u := by
  obtain ⟨n, hn⟩ := reaches_iff_after.mp ht.reaches
  obtain ⟨k, hk⟩ := reaches_iff_after.mp hu.reaches
  exact eq_of_after hn hk ht.pc hu.pc

/-- An output instruction at the end marks no label. -/
lemma UniqueMarks.append_output (h : UniqueMarks code) : UniqueMarks (code ++ [.output]) := by
  have hmark {i : Nat} {l : String} (hi : MarksAt (code ++ [.output]) i l) : MarksAt code i l := by
    rw [MarksAt, List.getElem?_append] at hi
    split at hi
    · exact hi
    · exact absurd (List.mem_of_getElem? hi) (by simp)
  intro i j l hi hj
  exact h i j l (hmark hi) (hmark hj)

end Machine

/-- Every generator that admits the names of the expression lowers it, and whenever code comes
out, its run from a memory with the property `P` comes to the end, with a value and a memory
that `Q` relates to the first memory. -/
structure Node.Computes (node : Node) (P : Memory → Prop) (Q : Memory → Int → Memory → Prop) :
    Prop where
  /-- The expression can be lowered. -/
  lowers : ∀ g : Generator, (∀ name ∈ node.names, g.options.strict = true → name ∈ g.symbols) →
    ∃ code, (g.lower node).result = .ok code
  /-- The code that comes out runs to its end. -/
  runs : ∀ (g : Generator) (code : List Instr), (g.lower node).result = .ok code →
    ∀ s : Machine.State, s.pc = 0 → P s.memory →
      ∃ t, Machine.Finishes code s t ∧ Q s.memory t.eax t.memory

/-- An expression with different labels computes its values. -/
lemma Node.computes_of_evaluates {node : Node} {P : Memory → Prop}
    {Q : Memory → Int → Memory → Prop} (hloops : node.loopIndices.Nodup)
    (hbranches : node.branchIndices.Nodup)
    (h : ∀ m, P m → ∃ v m', Evaluates m node v m' ∧ Q m v m') : node.Computes P Q where
  lowers g hg := by
    refine ⟨_, Generator.lowerAll_eq_ok_iff_accepts.mpr ⟨⟨?_, ?_, ?_⟩, rfl⟩⟩
    · intro other hother n hn
      obtain rfl := List.mem_singleton.mp hother
      exact hg n (Node.mem_names_iff.mpr hn)
    · simpa using hloops
    · simpa using hbranches
  runs g code hcode s hs hP := by
    have hunique := Generator.uniqueMarks_of_lowerAll hcode
    obtain ⟨-, rfl⟩ := Generator.lowerAll_eq_ok_iff.mp hcode
    rw [List.flatMap_singleton] at hunique ⊢
    obtain ⟨v, m', hev, hQ⟩ := h s.memory hP
    have hseg : Segment node.code s.pc node.code := by
      rw [hs]
      exact Segment.whole _
    obtain ⟨t, hrun, hc, rfl, rfl⟩ := Machine.realizes_of_evaluates hunique hev s hseg rfl
    exact ⟨t, ⟨hrun, by rw [hc.pc, hs, Nat.zero_add], hc.stack⟩, hQ⟩

/-- The code segment of a listing, run from the beginning of one of its fragments, evaluates the
fragments from there on, and outputs the last value. -/
lemma Program.finishes_of_evaluatesAll {program : Program} {options : Options} {listing : Listing}
    (h : program.assemble options = .ok listing) {before rest : List Node}
    (hfragments : program.fragments = before ++ rest) {s : Machine.State}
    (hs : s.pc = (before.flatMap Node.code).length) {v : Int} {m : Memory}
    (hev : EvaluatesAll s.memory s.eax rest v m) :
    ∃ t, Machine.Finishes (program.fragments.flatMap Node.code ++ [.output]) s t ∧
      t.output = s.output ++ [v] ∧ t.memory = m := by
  obtain ⟨haccepts, -⟩ := assemble_eq_ok_iff.mp h
  have hlower := Generator.lowerAll_eq_ok_iff_accepts.mpr ⟨haccepts, rfl⟩
  have hunique := (Generator.uniqueMarks_of_lowerAll hlower).append_output
  have hcode : program.fragments.flatMap Node.code ++ [.output]
      = before.flatMap Node.code ++ rest.flatMap Node.code ++ [.output] := by
    rw [hfragments, List.flatMap_append]
  rw [hcode] at hunique ⊢
  have hseg : Segment (before.flatMap Node.code ++ rest.flatMap Node.code ++ [.output]) s.pc
      (rest.flatMap Node.code) := ⟨_, _, rfl, hs.symm⟩
  obtain ⟨t, hrun, hc, rfl, rfl⟩ := Machine.reaches_of_evaluatesAll hunique hev hseg rfl rfl
  have hend : t.pc = (before.flatMap Node.code ++ rest.flatMap Node.code).length := by
    rw [hc.pc, hs, List.length_append]
  have hout : (before.flatMap Node.code ++ rest.flatMap Node.code ++ [.output])[t.pc]?
      = some .output := by
    rw [hend, List.getElem?_concat_length]
  refine ⟨{ t.next with output := t.output ++ [t.eax] },
    ⟨hrun.trans (.head (Machine.step_eq hout) (.refl _)), ?_, hc.stack⟩, ?_, rfl⟩
  · show t.pc + 1 = _
    simp only [hend, List.length_append, List.length_singleton]
  · rw [hc.output]

/-! ## Euclid's loop -/

namespace Demo

/-- Euclid's loop with a given index. -/
def euclidLoop (k : UInt64) : Node := .loop k positive (.bind "loop_body" euclidStep)

lemma evaluates_positive (m : Memory) :
    Evaluates m positive (if m "b" > 0 then 1 else 0) m :=
  .binary (.var m "b") (.number m 0) rfl

/-- A round replaces `a` and `b` by `b` and the remainder of `a` by `b`. -/
lemma evaluates_round {m : Memory} (h : m "b" ≠ 0) :
    ∃ v m', Evaluates m (.bind "loop_body" euclidStep) v m' ∧
      m' "a" = m "b" ∧ m' "b" = (m "a").tmod (m "b") := by
  have haux : Evaluates m (.bind "aux" (.binary .mod (.var "a") (.var "b")))
      ((m "a").tmod (m "b")) (m.set "aux" ((m "a").tmod (m "b"))) :=
    .bind (.binary (.var m "a") (.var m "b") (if_neg h))
  refine ⟨_, _, .bind (.binary haux (.binary (.bind (.var _ "b")) (.bind (.var _ "aux")) rfl) rfl),
    ?_, ?_⟩
  · simp [Memory.set]
  · simp [Memory.set]

/-- The loop ends with the greatest common divisor in `a` and zero in `b`, and has the value
zero. -/
lemma evaluates_euclid (k : UInt64) {m : Memory} (ha : 0 ≤ m "a") (hb : 0 ≤ m "b") :
    ∃ m', Evaluates m (euclidLoop k) 0 m' ∧
      m' "a" = Int.gcd (m "a") (m "b") ∧ m' "b" = 0 := by
  -- by the word `b`, which a round makes smaller
  obtain ⟨n, hn⟩ := Int.eq_ofNat_of_zero_le hb
  induction n using Nat.strongRecOn generalizing m with
  | ind n ih =>
    have hcondition := evaluates_positive m
    by_cases hpos : m "b" > 0
    · rw [if_pos hpos] at hcondition
      obtain ⟨v, m₁, hround, ha₁, hb₁⟩ := evaluates_round (m := m) (by omega)
      rw [Int.tmod_eq_emod_of_nonneg ha] at hb₁
      have hnonneg : 0 ≤ m "a" % m "b" := Int.emod_nonneg _ (by omega)
      have hlt : m "a" % m "b" < m "b" := Int.emod_lt_of_pos _ hpos
      have hnonneg₁ : 0 ≤ m₁ "b" := by omega
      obtain ⟨m', hrest, ha', hb'⟩ :=
        ih (m "a" % m "b").toNat (by omega) (ha₁ ▸ hb) hnonneg₁ (by omega)
      refine ⟨m', .loopNext hcondition (by decide) hround hrest, ?_, hb'⟩
      rw [ha', ha₁, hb₁, Int.gcd_comm, Int.gcd_emod]
    · have hzero : m "b" = 0 := by omega
      rw [if_neg hpos] at hcondition
      refine ⟨m, .loopEnd hcondition, ?_, hzero⟩
      rw [hzero, Int.gcd_zero_right, Int.natAbs_of_nonneg ha]

/-- The binding of the demo with a conditional: the loop is entered if `b` is positive, and `a`
is added to it. -/
def gcdBinding (labels : Allocator) : Node :=
  .bind "pgcd" (.lambda "a" "b" (.branch labels.nextBranch positive
    (.binary .add (euclidLoop labels.nextLoop) (.var "a")) (.var "a")))

lemma evaluates_gcdBinding (labels : Allocator) {m : Memory} (ha : 0 ≤ m "a") (hb : 0 ≤ m "b") :
    ∃ m', Evaluates m (gcdBinding labels) (Int.gcd (m "a") (m "b")) m' ∧
      m' "pgcd" = Int.gcd (m "a") (m "b") := by
  have hcondition := evaluates_positive m
  by_cases hpos : m "b" > 0
  · rw [if_pos hpos] at hcondition
    obtain ⟨m₁, hloop, ha₁, -⟩ := evaluates_euclid labels.nextLoop ha hb
    have hsum : Evaluates m (.binary .add (euclidLoop labels.nextLoop) (.var "a"))
        (0 + m₁ "a") m₁ := .binary hloop (.var m₁ "a") rfl
    rw [ha₁, Int.zero_add] at hsum
    exact ⟨_, .bind (.lambda (.branchThen hcondition (by decide) hsum)), Memory.set_same _ _ _⟩
  · have hzero : m "b" = 0 := by omega
    rw [if_neg hpos] at hcondition
    have hvar := Evaluates.var m "a"
    have hgcd : m "a" = Int.gcd (m "a") (m "b") := by
      rw [hzero, Int.gcd_zero_right, Int.natAbs_of_nonneg ha]
    rw [hgcd] at hvar
    exact ⟨_, .bind (.lambda (.branchElse hcondition hvar)), Memory.set_same _ _ _⟩

/-! ## The demos -/

/-- The words `a` and `b` are not negative. -/
def Nonnegative (m : Memory) : Prop := 0 ≤ m "a" ∧ 0 ≤ m "b"

/-- **The code of Euclid's algorithm computes the greatest common divisor.**  From words `a` and
`b` that are not negative, the code of the loop ends with their greatest common divisor in `a`,
and with zero in `b` and in the accumulator; and the code of the last fragment of the demo with a
conditional ends with the greatest common divisor in the accumulator and in `pgcd`.  Both leave
the stack as it was. -/
theorem euclid_computes_gcd (labels : Allocator) :
    (∃ loop, (gcdLoop labels).1.fragments[2]? = some loop ∧
      loop.Computes Nonnegative fun m v m' =>
        m' "a" = Int.gcd (m "a") (m "b") ∧ m' "b" = 0 ∧ v = 0) ∧
    ∃ binding, (gcdConditional labels).1.fragments.getLast? = some binding ∧
      binding.Computes Nonnegative fun m v m' =>
        v = Int.gcd (m "a") (m "b") ∧ m' "pgcd" = Int.gcd (m "a") (m "b") := by
  constructor
  · refine ⟨euclidLoop labels.nextLoop, rfl, ?_⟩
    refine Node.computes_of_evaluates (List.nodup_singleton _) List.nodup_nil ?_
    rintro m ⟨ha, hb⟩
    obtain ⟨m', hev, ha', hb'⟩ := evaluates_euclid labels.nextLoop ha hb
    exact ⟨0, m', hev, ha', hb', rfl⟩
  · refine ⟨gcdBinding labels, rfl, ?_⟩
    refine Node.computes_of_evaluates (List.nodup_singleton _) (List.nodup_singleton _) ?_
    rintro m ⟨ha, hb⟩
    obtain ⟨m', hev, hpgcd⟩ := evaluates_gcdBinding labels ha hb
    exact ⟨_, m', hev, rfl, hpgcd⟩

/-- A memory that holds 12 in `a` and 18 everywhere else. -/
def twelveEighteen : Memory := Memory.set (fun _ => 18) "a" 12

/-- From 12 and 18, with words on the stack and the last index of an allocator. -/
theorem euclid_computes_six :
    ∃ code t, (Generator.initial.lower (gcdBinding ⟨18446744073709551615, 3⟩)).result = .ok code ∧
      Machine.Finishes code ⟨0, 5, 6, 8, [7, 9], twelveEighteen, []⟩ t ∧
      t.eax = 6 ∧ t.memory "pgcd" = 6 := by
  obtain ⟨-, binding, hbinding, hcomputes⟩ := euclid_computes_gcd ⟨18446744073709551615, 3⟩
  obtain rfl : gcdBinding ⟨18446744073709551615, 3⟩ = binding := Option.some.inj hbinding
  obtain ⟨code, hcode⟩ := hcomputes.lowers .initial fun _ _ hstrict => absurd hstrict (by decide)
  obtain ⟨t, hfinishes, heax, hpgcd⟩ := hcomputes.runs _ code hcode
    ⟨0, 5, 6, 8, [7, 9], twelveEighteen, []⟩ rfl ⟨by decide, by decide⟩
  exact ⟨code, t, hcode, hfinishes, heax, hpgcd⟩

/-- **The demo that ends with the loop outputs zero.**  Its listing, run from the beginning of the
loop with words `a` and `b` that are not negative, comes to its end with their greatest common
divisor in `a`; but what it outputs is the value of the loop, which is zero, and so it is the
greatest common divisor only if both words are zero. -/
theorem gcdLoop_outputs_zero {labels : Allocator} {options : Options} {listing : Listing}
    (h : (gcdLoop labels).1.assemble options = .ok listing) :
    ∃ code, listing.lines = Program.layout (gcdLoop labels).1.data code ∧
      ∀ s : Machine.State,
        s.pc = (((gcdLoop labels).1.fragments.take 2).flatMap Node.code).length →
        Nonnegative s.memory →
        (∃ t, Machine.Finishes (code ++ [.output]) s t) ∧
        ∀ t, Machine.Finishes (code ++ [.output]) s t →
          t.output = s.output ++ [0] ∧
          t.memory "a" = Int.gcd (s.memory "a") (s.memory "b") ∧
          (t.output = s.output ++ [(Int.gcd (s.memory "a") (s.memory "b") : Int)] ↔
            s.memory "a" = 0 ∧ s.memory "b" = 0) := by
  refine ⟨_, (Program.assemble_eq_ok_iff.mp h).2, ?_⟩
  intro s hs hnonneg
  obtain ⟨m, hloop, ha, -⟩ := evaluates_euclid labels.nextLoop hnonneg.1 hnonneg.2
  have hfragments : (gcdLoop labels).1.fragments
      = (gcdLoop labels).1.fragments.take 2 ++ [euclidLoop labels.nextLoop] := rfl
  obtain ⟨t, hfinishes, hout, hmem⟩ :=
    Program.finishes_of_evaluatesAll h hfragments hs (.cons hloop (.nil m 0))
  refine ⟨⟨t, hfinishes⟩, ?_⟩
  intro u hu
  obtain rfl := hu.unique hfinishes
  refine ⟨hout, by rw [hmem, ha], ?_⟩
  rw [hout, List.append_cancel_left_eq, List.singleton_inj, ← Int.gcd_eq_zero_iff]
  omega

/-- From 12 and 18 the listing outputs zero, and not their greatest common divisor 6. -/
theorem gcdLoop_outputs_zero_not_six :
    ∃ listing code t, (gcdLoop .start).1.assemble {} = .ok listing ∧
      listing.lines = Program.layout ["a", "b", "aux", "loop_body"] code ∧
      Machine.Finishes (code ++ [.output]) ⟨4, 5, 6, 8, [7], twelveEighteen, []⟩ t ∧
      t.output = [0] ∧ t.memory "a" = 6 := by
  have hok : (gcdLoop .start).1.assemble {} = .ok ⟨Program.layout ["a", "b", "aux", "loop_body"]
      ((gcdLoop .start).1.fragments.flatMap Node.code)⟩ := rfl
  obtain ⟨code, hlines, hrun⟩ := gcdLoop_outputs_zero hok
  obtain ⟨⟨t, ht⟩, hall⟩ := hrun ⟨4, 5, 6, 8, [7], twelveEighteen, []⟩ rfl ⟨by decide, by decide⟩
  obtain ⟨hout, ha, -⟩ := hall t ht
  exact ⟨_, code, t, hok, hlines, ht, hout, ha⟩

end Demo

end Accumulator
