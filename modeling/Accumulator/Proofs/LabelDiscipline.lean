/-
Labels and jumps in the code of expressions.

Every loop and every conditional contributes two arcs to the code: a jump and the label that it
leads to.

* A loop `k` jumps from the end of its body back to `while_start_k`, and from the end of its
  condition forward to `while_end_k`.
* A conditional `k` jumps from the end of its condition forward to `if_else_k`, and from the end
  of its first branch forward to `if_end_k`.

`Node.arcs` is the list of these arcs with their places.  The labels of the arcs are the labels
of the expression (`map_label_arcs`), the marks of the code are the goals of the arcs
(`locates_mark?`), and the jumps of the code are their sources (`locates_jump?`).  When the
labels are different, an arc is determined by its label, and everything about jumps and labels
can be read off the list of arcs.
-/
import Accumulator.Proofs.FirstFault
import Accumulator.Proofs.Segment
import Mathlib.Tactic.Tauto

namespace Accumulator

/-! ## Marks and jumps -/

/-- The label that an instruction marks. -/
def Instr.mark? : Instr → Option String
  | label l => some l
  | _ => none

/-- The label that an instruction jumps to, always or when the accumulator is zero. -/
def Instr.jump? : Instr → Option String
  | jumpIfZero l => some l
  | jump l => some l
  | _ => none

/-- The rule of jumps: a conditional jump leaves a loop or leads to a second branch, and an
unconditional jump repeats a loop or leaves a first branch. -/
def Instr.Aimed : Instr → Prop
  | jumpIfZero l => ∃ k, l = (Label.loopEnd k).text ∨ l = (Label.branchElse k).text
  | jump l => ∃ k, l = (Label.loopStart k).text ∨ l = (Label.branchEnd k).text
  | _ => True

/-- The code marks the label `l` at the place `i`. -/
def MarksAt (code : List Instr) (i : Nat) (l : String) : Prop :=
  code[i]? = some (.label l)

/-- The code jumps to the label `l` from the place `i`, always or when the accumulator is
zero. -/
def JumpsAt (code : List Instr) (i : Nat) (l : String) : Prop :=
  code[i]? = some (.jump l) ∨ code[i]? = some (.jumpIfZero l)

lemma marksAt_iff {code : List Instr} {i : Nat} {l : String} :
    MarksAt code i l ↔ code[i]?.bind Instr.mark? = some l := by
  unfold MarksAt
  cases code[i]? with
  | none => simp
  | some x => cases x <;> simp [Instr.mark?]

lemma jumpsAt_iff {code : List Instr} {i : Nat} {l : String} :
    JumpsAt code i l ↔ code[i]?.bind Instr.jump? = some l := by
  unfold JumpsAt
  cases code[i]? with
  | none => simp
  | some x => cases x <;> simp [Instr.jump?]

/-- The places at which `f` has a value, with the values; the first place is `start`. -/
def places (f : Instr → Option String) (start : Nat) (code : List Instr) : List (Nat × String) :=
  (code.zipIdx start).filterMap fun (x, i) => (f x).map fun l => (i, l)

section Places

variable {f : Instr → Option String} {start : Nat}

@[simp] lemma places_nil : places f start [] = [] := rfl

@[simp] lemma places_append (xs ys : List Instr) :
    places f start (xs ++ ys) = places f start xs ++ places f (start + xs.length) ys := by
  simp [places, List.zipIdx_append, List.filterMap_append]

@[simp] lemma places_cons (x : Instr) (xs : List Instr) :
    places f start (x :: xs)
      = ((f x).map fun l => (start, l)).toList ++ places f (start + 1) xs := by
  cases h : f x <;> simp [places, h]

lemma mem_places {xs : List Instr} {i : Nat} {l : String} :
    (i, l) ∈ places f start xs ↔ start ≤ i ∧ xs[i - start]?.bind f = some l := by
  simp only [places, List.mem_filterMap, Option.map_eq_some_iff, Prod.mk.injEq, Prod.exists,
    List.mem_zipIdx_iff_le_and_getElem?_sub]
  constructor
  · rintro ⟨x, j, ⟨hle, hx⟩, l', hl', rfl, rfl⟩
    exact ⟨hle, by rw [hx]; exact hl'⟩
  · rintro ⟨hle, hl⟩
    obtain ⟨x, hx, hl⟩ := Option.bind_eq_some_iff.mp hl
    exact ⟨x, i, ⟨hle, hx⟩, l, hl, rfl, rfl⟩

/-- The place `i` is one of those that instructions from the place `start` on occupy. -/
def Covers (start : Nat) (part : List Instr) (i : Nat) : Prop :=
  start ≤ i ∧ i < start + part.length

/-- In a segment the places are those of the whole code. -/
lemma mem_places_of_segment {code xs : List Instr} {i : Nat} {l : String}
    (h : Segment code start xs) :
    (i, l) ∈ places f start xs ↔ Covers start xs i ∧ code[i]?.bind f = some l := by
  rw [mem_places, Covers]
  by_cases hle : start ≤ i
  · by_cases hlt : i < start + xs.length
    · have hget : code[i]? = xs[i - start]? := by
        rw [← h.getElem?_add (by omega), Nat.add_sub_cancel' hle]
      simp [hle, hlt, hget]
    · have hnone : xs[i - start]? = none := List.getElem?_eq_none (by omega)
      simp [hlt, hnone]
  · simp [hle]

end Places

@[simp] lemma Operator.places_mark?_tail (op : Operator) (start : Nat) :
    places Instr.mark? start op.tail = [] := by
  cases op <;> rfl

@[simp] lemma Operator.places_jump?_tail (op : Operator) (start : Nat) :
    places Instr.jump? start op.tail = [] := by
  cases op <;> rfl

/-! ## Arcs -/

/-- A jump and the label that it leads to. -/
structure Arc where
  source : Nat
  goal : Nat
  label : Label

/-- An arc to the start of a loop leads back, and all others lead forward. -/
def Arc.Directed (arc : Arc) : Prop :=
  match arc.label.family with
  | .loopStart => arc.goal < arc.source
  | .loopEnd | .branchElse | .branchEnd => arc.source < arc.goal

namespace Node

/-- The arcs of an expression whose code begins at the place `start`. -/
def arcs (start : Nat) : Node → List Arc
  | number _ => []
  | var _ => []
  | binary _ left right => left.arcs start ++ right.arcs (start + left.code.length + 1)
  | bind _ value => value.arcs start
  | loop k condition body =>
    let exit := start + 1 + condition.code.length
    let back := exit + 1 + body.code.length
    ⟨back, start, .loopStart k⟩ :: ⟨exit, back + 1, .loopEnd k⟩ ::
      (condition.arcs (start + 1) ++ body.arcs (exit + 1))
  | branch k condition consequent alternative =>
    let test := start + condition.code.length
    let leave := test + 1 + consequent.code.length
    let other := leave + 1
    ⟨test, other, .branchElse k⟩ ::
      ⟨leave, other + 1 + alternative.code.length, .branchEnd k⟩ ::
      (condition.arcs start ++ consequent.arcs (test + 1) ++ alternative.arcs (other + 1))
  | lambda _ _ body => body.arcs start

/-- The arcs carry the labels of the expression, in order. -/
lemma map_label_arcs (node : Node) (start : Nat) :
    (node.arcs start).map Arc.label = node.labels := by
  induction node generalizing start with
  | number | var => rfl
  | binary op left right ihl ihr => simp [arcs, ihl, ihr]
  | bind name value ih => exact ih start
  | loop k condition body ihc ihb => simp [arcs, ihc, ihb]
  | branch k condition consequent alternative ihc iht ihe => simp [arcs, ihc, iht, ihe]
  | lambda first second body ih => exact ih start

/-- Loops go back and everything else goes forward. -/
lemma directed_of_mem_arcs {node : Node} {start : Nat} {arc : Arc}
    (h : arc ∈ node.arcs start) : arc.Directed := by
  induction node generalizing start with
  | number | var => exact absurd h List.not_mem_nil
  | binary op left right ihl ihr =>
    rcases List.mem_append.mp h with h | h
    · exact ihl h
    · exact ihr h
  | bind name value ih => exact ih h
  | loop k condition body ihc ihb =>
    simp only [arcs, List.mem_cons, List.mem_append] at h
    rcases h with rfl | rfl | h | h
    · show start < start + 1 + condition.code.length + 1 + body.code.length
      omega
    · show start + 1 + condition.code.length
        < start + 1 + condition.code.length + 1 + body.code.length + 1
      omega
    · exact ihc h
    · exact ihb h
  | branch k condition consequent alternative ihc iht ihe =>
    simp only [arcs, List.mem_cons, List.mem_append] at h
    rcases h with rfl | rfl | (h | h) | h
    · show start + condition.code.length
        < start + condition.code.length + 1 + consequent.code.length + 1
      omega
    · show start + condition.code.length + 1 + consequent.code.length
        < start + condition.code.length + 1 + consequent.code.length + 1 + 1
          + alternative.code.length
      omega
    · exact ihc h
    · exact iht h
    · exact ihe h
  | lambda first second body ih => exact ih h

/-- One end of every arc: the instructions of an expression that have a label by `f` stand at the
places `place` of its arcs, and have the labels of the arcs. -/
def Locates (f : Instr → Option String) (place : Arc → Nat) : Prop :=
  ∀ (node : Node) (start : Nat) (p : Nat × String), p ∈ places f start node.code ↔
    p ∈ (node.arcs start).map fun arc => (place arc, arc.label.text)

/-- The marks of the code are the goals of the arcs. -/
lemma locates_mark? : Locates Instr.mark? Arc.goal := by
  intro node start p
  induction node generalizing start with
  | number | var => rfl
  | binary op left right ihl ihr => simp [code, arcs, Instr.mark?, ihl, ihr]
  | bind name value ih => simp [code, arcs, Instr.mark?, ih]
  | loop k condition body ihc ihb =>
    simp only [code, List.cons_append, List.nil_append, List.append_assoc, places_cons,
      places_append, places_nil, Instr.mark?, Option.map_some, Option.map_none,
      Option.toList_some, Option.toList_none, List.append_nil, List.mem_cons, List.mem_append,
      List.not_mem_nil, or_false, ihc, ihb, arcs, List.map_cons, List.map_append]
    tauto
  | branch k condition consequent alternative ihc iht ihe =>
    simp only [code, List.cons_append, List.nil_append, List.append_assoc, places_cons,
      places_append, places_nil, Instr.mark?, Option.map_some, Option.map_none,
      Option.toList_some, Option.toList_none, List.append_nil, List.mem_cons, List.mem_append,
      List.not_mem_nil, or_false, ihc, iht, ihe, arcs, List.map_cons, List.map_append]
    tauto
  | lambda first second body ih => exact ih start

/-- The jumps of the code are the sources of the arcs. -/
lemma locates_jump? : Locates Instr.jump? Arc.source := by
  intro node start p
  induction node generalizing start with
  | number | var => rfl
  | binary op left right ihl ihr => simp [code, arcs, Instr.jump?, ihl, ihr]
  | bind name value ih => simp [code, arcs, Instr.jump?, ih]
  | loop k condition body ihc ihb =>
    simp only [code, List.cons_append, List.nil_append, List.append_assoc, places_cons,
      places_append, places_nil, Instr.jump?, Option.map_some, Option.map_none,
      Option.toList_some, Option.toList_none, List.append_nil, List.mem_cons, List.mem_append,
      List.not_mem_nil, or_false, ihc, ihb, arcs, List.map_cons, List.map_append]
    tauto
  | branch k condition consequent alternative ihc iht ihe =>
    simp only [code, List.cons_append, List.nil_append, List.append_assoc, places_cons,
      places_append, places_nil, Instr.jump?, Option.map_some, Option.map_none,
      Option.toList_some, Option.toList_none, List.append_nil, List.mem_cons, List.mem_append,
      ihc, iht, ihe, arcs, List.map_cons, List.map_append]
    tauto
  | lambda first second body ih => exact ih start

/-- The jumps of the code are aimed by the rule. -/
lemma aimed_of_mem_code {node : Node} {x : Instr} (h : x ∈ node.code) : x.Aimed := by
  induction node with
  | number value =>
    obtain rfl : x = .loadImmediate value := by simpa [code] using h
    trivial
  | var name =>
    obtain rfl : x = .load name := by simpa [code] using h
    trivial
  | binary op left right ihl ihr =>
    simp only [code, List.mem_append, List.mem_singleton] at h
    rcases h with (((h | rfl) | h) | rfl) | h
    · exact ihl h
    · trivial
    · exact ihr h
    · trivial
    · cases op <;> simp only [Operator.tail, List.mem_cons, List.not_mem_nil, or_false] at h <;>
        rcases h with rfl | rfl | rfl <;> trivial
  | bind name value ih =>
    simp only [code, List.mem_append, List.mem_singleton] at h
    rcases h with h | rfl
    · exact ih h
    · trivial
  | loop k condition body ihc ihb =>
    simp only [code, List.mem_append, List.mem_cons, List.not_mem_nil, or_false] at h
    rcases h with (((rfl | h) | rfl) | h) | rfl | rfl
    · trivial
    · exact ihc h
    · exact ⟨k, Or.inl rfl⟩
    · exact ihb h
    · exact ⟨k, Or.inl rfl⟩
    · trivial
  | branch k condition consequent alternative ihc iht ihe =>
    simp only [code, List.mem_append, List.mem_cons, List.not_mem_nil, or_false] at h
    rcases h with ((((h | rfl) | h) | rfl | rfl) | h) | rfl
    · exact ihc h
    · exact ⟨k, Or.inr rfl⟩
    · exact iht h
    · exact ⟨k, Or.inr rfl⟩
    · trivial
    · exact ihe h
    · trivial
  | lambda first second body ih => exact ih h

/-! ## Arcs of a whole output -/

/-- The arcs of expressions whose code stands one after another from the place `start` on. -/
def arcsOf (start : Nat) : List Node → List Arc
  | [] => []
  | node :: nodes => node.arcs start ++ arcsOf (start + node.code.length) nodes

lemma map_label_arcsOf (nodes : List Node) (start : Nat) :
    (arcsOf start nodes).map Arc.label = nodes.flatMap labels := by
  induction nodes generalizing start with
  | nil => rfl
  | cons node nodes ih => simp [arcsOf, map_label_arcs, ih]

lemma directed_of_mem_arcsOf {nodes : List Node} {start : Nat} {arc : Arc}
    (h : arc ∈ arcsOf start nodes) : arc.Directed := by
  induction nodes generalizing start with
  | nil => exact absurd h List.not_mem_nil
  | cons node nodes ih =>
    rcases List.mem_append.mp h with h | h
    · exact directed_of_mem_arcs h
    · exact ih h

lemma Locates.mem_places_flatMap {f : Instr → Option String} {place : Arc → Nat}
    (h : Locates f place) {nodes : List Node} {start : Nat} {p : Nat × String} :
    p ∈ places f start (nodes.flatMap code) ↔
      p ∈ (arcsOf start nodes).map fun arc => (place arc, arc.label.text) := by
  induction nodes generalizing start with
  | nil => rfl
  | cons node nodes ih =>
    rw [List.flatMap_cons, places_append, List.mem_append, h node, ih, arcsOf, List.map_append,
      List.mem_append]

lemma Locates.getElem?_flatMap_iff {f : Instr → Option String} {place : Arc → Nat}
    (h : Locates f place) {nodes : List Node} {i : Nat} {l : String} :
    (nodes.flatMap code)[i]?.bind f = some l ↔
      ∃ arc ∈ arcsOf 0 nodes, place arc = i ∧ arc.label.text = l := by
  have hmem : (nodes.flatMap code)[i]?.bind f = some l ↔
      (i, l) ∈ places f 0 (nodes.flatMap code) := by
    rw [mem_places]
    simp
  rw [hmem, h.mem_places_flatMap, List.mem_map]
  simp only [Prod.mk.injEq]

lemma marksAt_flatMap_iff {nodes : List Node} {i : Nat} {l : String} :
    MarksAt (nodes.flatMap code) i l ↔
      ∃ arc ∈ arcsOf 0 nodes, arc.goal = i ∧ arc.label.text = l := by
  rw [marksAt_iff, Locates.getElem?_flatMap_iff locates_mark?]

lemma jumpsAt_flatMap_iff {nodes : List Node} {i : Nat} {l : String} :
    JumpsAt (nodes.flatMap code) i l ↔
      ∃ arc ∈ arcsOf 0 nodes, arc.source = i ∧ arc.label.text = l := by
  rw [jumpsAt_iff, Locates.getElem?_flatMap_iff locates_jump?]

/-! ## Different labels -/

section Nodup

variable {nodes : List Node} (hnodup : (nodes.flatMap labels).Nodup)

include hnodup

/-- An arc is determined by the text of its label. -/
lemma arc_eq_of_text_eq {arc arc' : Arc} (h : arc ∈ arcsOf 0 nodes) (h' : arc' ∈ arcsOf 0 nodes)
    (htext : arc.label.text = arc'.label.text) : arc = arc' := by
  rw [← map_label_arcsOf nodes 0] at hnodup
  exact List.inj_on_of_nodup_map hnodup h h' (Label.text_injective htext)

lemma marksAt_unique {i j : Nat} {l : String} (hi : MarksAt (nodes.flatMap code) i l)
    (hj : MarksAt (nodes.flatMap code) j l) : i = j := by
  obtain ⟨arc, harc, rfl, rfl⟩ := marksAt_flatMap_iff.mp hi
  obtain ⟨arc', harc', rfl, htext⟩ := marksAt_flatMap_iff.mp hj
  rw [arc_eq_of_text_eq hnodup harc harc' htext.symm]

lemma jumpsAt_unique {i j : Nat} {l : String} (hi : JumpsAt (nodes.flatMap code) i l)
    (hj : JumpsAt (nodes.flatMap code) j l) : i = j := by
  obtain ⟨arc, harc, rfl, rfl⟩ := jumpsAt_flatMap_iff.mp hi
  obtain ⟨arc', harc', rfl, htext⟩ := jumpsAt_flatMap_iff.mp hj
  rw [arc_eq_of_text_eq hnodup harc harc' htext.symm]

/-- A jump and a mark of the same label are the two ends of an arc. -/
lemma exists_arc {i j : Nat} {l : String} (hi : JumpsAt (nodes.flatMap code) i l)
    (hj : MarksAt (nodes.flatMap code) j l) :
    ∃ arc ∈ arcsOf 0 nodes, arc.source = i ∧ arc.goal = j ∧ arc.label.text = l := by
  obtain ⟨arc, harc, rfl, rfl⟩ := jumpsAt_flatMap_iff.mp hi
  have hgoal : MarksAt (nodes.flatMap code) arc.goal arc.label.text :=
    marksAt_flatMap_iff.mpr ⟨arc, harc, rfl, rfl⟩
  exact ⟨arc, harc, rfl, marksAt_unique hnodup hgoal hj, rfl⟩

/-- The machine finds the goal of every jump. -/
lemma target_of_jumpsAt {i : Nat} {l : String} (hi : JumpsAt (nodes.flatMap code) i l) :
    ∃ arc ∈ arcsOf 0 nodes, arc.source = i ∧ arc.label.text = l ∧
      Machine.target (nodes.flatMap code) l = some arc.goal := by
  obtain ⟨arc, harc, rfl, rfl⟩ := jumpsAt_flatMap_iff.mp hi
  have hgoal : MarksAt (nodes.flatMap code) arc.goal arc.label.text :=
    marksAt_flatMap_iff.mpr ⟨arc, harc, rfl, rfl⟩
  refine ⟨arc, harc, rfl, rfl, Machine.target_eq_some hgoal fun j hj => ?_⟩
  exact marksAt_unique hnodup hj hgoal

end Nodup

/-! ## The code of subtrees -/

/-- The subtrees of an expression, itself first, each with the place at which its code begins
when the code of the expression begins at `start`. -/
def sites (start : Nat) : Node → List (Nat × Node)
  | number value => [(start, number value)]
  | var name => [(start, var name)]
  | binary op left right =>
    (start, binary op left right) ::
      (left.sites start ++ right.sites (start + left.code.length + 1))
  | bind name value => (start, bind name value) :: value.sites start
  | loop k condition body =>
    (start, loop k condition body) ::
      (condition.sites (start + 1) ++ body.sites (start + 1 + condition.code.length + 1))
  | branch k condition consequent alternative =>
    let test := start + condition.code.length
    let other := test + 1 + consequent.code.length + 1
    (start, branch k condition consequent alternative) ::
      (condition.sites start ++ consequent.sites (test + 1) ++ alternative.sites (other + 1))
  | lambda first second body => (start, lambda first second body) :: body.sites start

/-- The subtrees of expressions whose code stands one after another from the place `start`
on. -/
def sitesOf (start : Nat) : List Node → List (Nat × Node)
  | [] => []
  | node :: nodes => node.sites start ++ sitesOf (start + node.code.length) nodes

/-- The code of a subtree stands in the code of the tree. -/
lemma segment_of_mem_sites {node part : Node} {output : List Instr} {start place : Nat}
    (hmem : (place, part) ∈ node.sites start) (h : Segment output start node.code) :
    Segment output place part.code := by
  induction node generalizing start with
  | number value =>
    obtain ⟨rfl, rfl⟩ : place = start ∧ part = number value := by simpa [sites] using hmem
    exact h
  | var name =>
    obtain ⟨rfl, rfl⟩ : place = start ∧ part = var name := by simpa [sites] using hmem
    exact h
  | binary op left right ihl ihr =>
    obtain ⟨hleft, -, hright, -⟩ := h.binary
    simp only [sites, List.mem_cons, List.mem_append, Prod.mk.injEq] at hmem
    rcases hmem with ⟨rfl, rfl⟩ | hmem | hmem
    · exact h
    · exact ihl hmem hleft
    · exact ihr hmem hright
  | bind name value ih =>
    simp only [sites, List.mem_cons, Prod.mk.injEq] at hmem
    rcases hmem with ⟨rfl, rfl⟩ | hmem
    · exact h
    · exact ih hmem h.bind.1
  | loop k condition body ihc ihb =>
    obtain ⟨-, hcondition, -, hbody, -⟩ := h.loop
    simp only [sites, List.mem_cons, List.mem_append, Prod.mk.injEq] at hmem
    rcases hmem with ⟨rfl, rfl⟩ | hmem | hmem
    · exact h
    · exact ihc hmem hcondition
    · exact ihb hmem hbody
  | branch k condition consequent alternative ihc iht ihe =>
    obtain ⟨hcondition, -, hfirst, -, -, hsecond, -⟩ := h.branch
    simp only [sites, List.mem_cons, List.mem_append, Prod.mk.injEq] at hmem
    rcases hmem with ⟨rfl, rfl⟩ | (hmem | hmem) | hmem
    · exact h
    · exact ihc hmem hcondition
    · exact iht hmem hfirst
    · exact ihe hmem hsecond
  | lambda first second body ih =>
    simp only [sites, List.mem_cons, Prod.mk.injEq] at hmem
    rcases hmem with ⟨rfl, rfl⟩ | hmem
    · exact h
    · exact ih hmem h

lemma segment_of_mem_sitesOf {nodes : List Node} {part : Node} {output : List Instr}
    {start place : Nat} (hmem : (place, part) ∈ sitesOf start nodes)
    (h : Segment output start (nodes.flatMap code)) : Segment output place part.code := by
  induction nodes generalizing start with
  | nil => exact absurd hmem List.not_mem_nil
  | cons node nodes ih =>
    rcases List.mem_append.mp hmem with hmem | hmem
    · exact segment_of_mem_sites hmem h.append_left
    · exact ih hmem h.append_right

/-- If one end of an arc is inside the code of a subtree, then so is the other end. -/
lemma Locates.exists_of_segment {f f' : Instr → Option String} {place place' : Arc → Nat}
    (h : Locates f place) (h' : Locates f' place') {part : Node} {output : List Instr}
    {start i : Nat} {l : String} (hseg : Segment output start part.code)
    (hi : Covers start part.code i) (hl : output[i]?.bind f = some l) :
    ∃ j, Covers start part.code j ∧ output[j]?.bind f' = some l := by
  have hmem : (i, l) ∈ places f start part.code := (mem_places_of_segment hseg).mpr ⟨hi, hl⟩
  obtain ⟨arc, harc, hends⟩ := List.mem_map.mp ((h part start _).mp hmem)
  obtain ⟨-, rfl⟩ := Prod.mk.inj hends
  have hmem' : (place' arc, arc.label.text) ∈ places f' start part.code :=
    (h' part start _).mpr (List.mem_map.mpr ⟨arc, harc, rfl⟩)
  exact ⟨place' arc, (mem_places_of_segment hseg).mp hmem'⟩

end Node

/-! ## The discipline -/

/-- The discipline of labels and jumps in code. -/
structure WellLabelled (code : List Instr) : Prop where
  /-- A label is marked at one place. -/
  mark_unique : ∀ i j l, MarksAt code i l → MarksAt code j l → i = j
  /-- Every jump leads to a label that is marked. -/
  jump_marked : ∀ i l, JumpsAt code i l → ∃ j, MarksAt code j l
  /-- Exactly one jump leads to a label that is marked. -/
  mark_jumped : ∀ j l, MarksAt code j l → ∃! i, JumpsAt code i l
  /-- A conditional jump leads forward. -/
  zero_forward : ∀ i j l, code[i]? = some (.jumpIfZero l) → MarksAt code j l → i < j
  /-- A jump to the end of a conditional leads forward. -/
  end_forward : ∀ i j k, code[i]? = some (.jump (Label.branchEnd k).text) →
    MarksAt code j (Label.branchEnd k).text → i < j
  /-- A jump to the start of a loop leads back. -/
  start_back : ∀ i j k, code[i]? = some (.jump (Label.loopStart k).text) →
    MarksAt code j (Label.loopStart k).text → j < i
  /-- There are no jumps but these. -/
  aimed : ∀ x ∈ code, x.Aimed

lemma Node.wellLabelled {nodes : List Node} (hnodup : (nodes.flatMap Node.labels).Nodup) :
    WellLabelled (nodes.flatMap Node.code) := by
  have haimed : ∀ x ∈ nodes.flatMap Node.code, x.Aimed := by
    intro x hx
    obtain ⟨node, -, hx⟩ := List.mem_flatMap.mp hx
    exact aimed_of_mem_code hx
  -- the direction of a jump is that of the arc whose label it carries
  have hdirected {i j : Nat} {l : Label} (hi : JumpsAt (nodes.flatMap code) i l.text)
      (hj : MarksAt (nodes.flatMap code) j l.text) : (Arc.mk i j l).Directed := by
    obtain ⟨arc, harc, rfl, rfl, htext⟩ := exists_arc hnodup hi hj
    obtain rfl := Label.text_injective htext
    exact directed_of_mem_arcsOf harc
  constructor
  case mark_unique => exact fun i j l => marksAt_unique hnodup
  case jump_marked =>
    intro i l hi
    obtain ⟨arc, harc, -, rfl⟩ := jumpsAt_flatMap_iff.mp hi
    exact ⟨arc.goal, marksAt_flatMap_iff.mpr ⟨arc, harc, rfl, rfl⟩⟩
  case mark_jumped =>
    intro j l hj
    obtain ⟨arc, harc, -, rfl⟩ := marksAt_flatMap_iff.mp hj
    have hsource : JumpsAt (nodes.flatMap code) arc.source arc.label.text :=
      jumpsAt_flatMap_iff.mpr ⟨arc, harc, rfl, rfl⟩
    exact ⟨arc.source, hsource, fun i hi => jumpsAt_unique hnodup hi hsource⟩
  case zero_forward =>
    intro i j l hi hj
    obtain ⟨k, rfl | rfl⟩ := haimed _ (List.mem_of_getElem? hi)
    · exact hdirected (Or.inr hi) hj
    · exact hdirected (Or.inr hi) hj
  case end_forward => exact fun i j k hi hj => hdirected (Or.inl hi) hj
  case start_back => exact fun i j k hi hj => hdirected (Or.inl hi) hj
  case aimed => exact haimed

/-- **Labels and jumps of an output.**  The code of an output keeps the discipline of labels.  The
code of every subtree is a segment of it, and a jump and the label that it leads to are both
inside the segment or both outside. -/
theorem Generator.wellLabelled_of_lowerAll {g : Generator} {nodes : List Node}
    {code : List Instr} (h : (g.lowerAll nodes).result = .ok code) :
    WellLabelled code ∧
      ∀ place part, (place, part) ∈ Node.sitesOf 0 nodes →
        Segment code place part.code ∧
          ∀ i j l, JumpsAt code i l → MarksAt code j l →
            (Covers place part.code i ↔ Covers place part.code j) := by
  have hnodup := labels_nodup_of_lowerAll h
  obtain ⟨-, rfl⟩ := lowerAll_eq_ok_iff.mp h
  refine ⟨Node.wellLabelled hnodup, fun place part hmem => ?_⟩
  have hsegment := Node.segment_of_mem_sitesOf hmem (Segment.whole _)
  refine ⟨hsegment, fun i j l hi hj => ⟨fun hin => ?_, fun hin => ?_⟩⟩
  · obtain ⟨j', hin', hj'⟩ := Node.locates_jump?.exists_of_segment Node.locates_mark? hsegment hin
      (jumpsAt_iff.mp hi)
    rwa [Node.marksAt_unique hnodup hj (marksAt_iff.mpr hj')]
  · obtain ⟨i', hin', hi'⟩ := Node.locates_mark?.exists_of_segment Node.locates_jump? hsegment hin
      (marksAt_iff.mp hj)
    rwa [Node.jumpsAt_unique hnodup hi (jumpsAt_iff.mpr hi')]

/-- A sum whose left operand is a loop and whose right operand is a conditional, both with the
index zero. -/
def Node.loopPlusBranch : Node :=
  .binary .add (.loop 0 (.var "n") (.bind "n" (.number 0)))
    (.branch 0 (.var "c") (.number 1) (.number 2))

theorem Generator.wellLabelled_loopPlusBranch :
    (initial.lowerAll [Node.loopPlusBranch]).result = .ok Node.loopPlusBranch.code ∧
      WellLabelled Node.loopPlusBranch.code ∧
      ∀ i j l, JumpsAt Node.loopPlusBranch.code i l → MarksAt Node.loopPlusBranch.code j l →
        (Covers 8 (Node.branch 0 (.var "c") (.number 1) (.number 2)).code i ↔
          Covers 8 (Node.branch 0 (.var "c") (.number 1) (.number 2)).code j) := by
  have hok : (initial.lowerAll [Node.loopPlusBranch]).result = .ok Node.loopPlusBranch.code := rfl
  obtain ⟨hlabelled, hsites⟩ := wellLabelled_of_lowerAll hok
  exact ⟨hok, hlabelled, (hsites 8 (.branch 0 (.var "c") (.number 1) (.number 2)) (by decide)).2⟩

end Accumulator
