/-
Indices of labels are opaque.

A relabelling changes the indices of loops by one map and the indices of conditionals by another.
It acts on labels, and from there on their texts, on instructions, faults and lines, and on
expressions.  The code and the checks of a relabelled expression are the relabelled code and the
relabelled checks, whatever the maps are.  Which check fails first is another matter: a label fails
if its text was claimed before, so the maps must not identify labels that occur.

* `Relabelling.firstFailing?_map_check`: a relabelling that is injective on the labels of the
  checks keeps the place of the first failing check;
* `Relabelling.lowerAll_map_node`: so it commutes with lowering expressions into one output, with
  success and with failure;
* `Relabelling.assemble_program`: so it commutes with assembling a program.

A demo that is built from any allocator is the demo built from a new one, with its indices shifted.
-/
import Accumulator.Proofs.DemoSeries
import Mathlib.Data.Set.Function

namespace Accumulator

/-- A change of indices. -/
structure Relabelling where
  loop : UInt64 → UInt64
  branch : UInt64 → UInt64

namespace Relabelling

variable (r : Relabelling)

/-! ## What is relabelled -/

/-- The new indices of the labels of a family. -/
def index : LabelFamily → UInt64 → UInt64
  | .loopStart | .loopEnd => r.loop
  | .branchElse | .branchEnd => r.branch

/-- The label with its new index. -/
def label (l : Label) : Label := ⟨l.family, r.index l.family l.index⟩

/-- The text of a label with its new index; any other text stays as it is. -/
def text (t : String) : String :=
  match Label.ofText? t with
  | some l => if l.text = t then (r.label l).text else t
  | none => t

/-- An instruction that marks a label or jumps to one gets the new label. -/
def instr : Instr → Instr
  | .label t => .label (r.text t)
  | .jumpIfZero t => .jumpIfZero (r.text t)
  | .jump t => .jump (r.text t)
  | x => x

/-- A fault that names a label names the new label. -/
def error : Error → Error
  | .duplicateLabel t => .duplicateLabel (r.text t)
  | e => e

/-- A line that shows an instruction shows the instruction with its new label; any other line stays
as it is. -/
def line (t : String) : String :=
  if (Instr.read t).text = t then (r.instr (Instr.read t)).text else t

/-- A listing with its lines relabelled. -/
def listing (l : Listing) : Listing := ⟨l.lines.map r.line⟩

/-- A result with its value changed by a given map, or its fault relabelled. -/
def result {α : Type} (f : α → α) : Except Error α → Except Error α
  | .ok value => .ok (f value)
  | .error e => .error (r.error e)

/-- An expression with all its indices changed. -/
def node : Node → Node
  | .number value => .number value
  | .var name => .var name
  | .binary op left right => .binary op (node left) (node right)
  | .bind name value => .bind name (node value)
  | .loop k condition body => .loop (r.loop k) (node condition) (node body)
  | .branch k condition consequent alternative =>
    .branch (r.branch k) (node condition) (node consequent) (node alternative)
  | .lambda first second body => .lambda first second (node body)

/-- A program with all its indices changed. -/
def program (p : Program) : Program := { p with fragments := p.fragments.map r.node }

/-- A check with its label relabelled. -/
def check : Check → Check
  | .name n => .name n
  | .label l => .label (r.label l)

@[simp] lemma text_text (l : Label) : r.text l.text = (r.label l).text := by
  simp [text]

@[simp] lemma label_loopStart (k : UInt64) : r.label (.loopStart k) = .loopStart (r.loop k) := rfl

@[simp] lemma label_loopEnd (k : UInt64) : r.label (.loopEnd k) = .loopEnd (r.loop k) := rfl

@[simp] lemma label_branchElse (k : UInt64) :
    r.label (.branchElse k) = .branchElse (r.branch k) := rfl

@[simp] lemma label_branchEnd (k : UInt64) :
    r.label (.branchEnd k) = .branchEnd (r.branch k) := rfl

/-! ## Code and checks -/

/-- The code of a relabelled expression is the relabelled code. -/
lemma code_node (n : Node) : (r.node n).code = n.code.map r.instr := by
  have htail (op : Operator) : op.tail.map r.instr = op.tail := by
    cases op <;> rfl
  induction n with
  | number | var => rfl
  | binary op left right ihl ihr => simp [node, Node.code, instr, ihl, ihr, htail]
  | bind name value ih => simp [node, Node.code, instr, ih]
  | loop k condition body ihc ihb => simp [node, Node.code, instr, ihc, ihb]
  | branch k condition consequent alternative ihc iht ihe =>
    simp [node, Node.code, instr, ihc, iht, ihe]
  | lambda first second body ih => simpa [node, Node.code] using ih

/-- The checks of a relabelled expression are the relabelled checks. -/
lemma checks_node (n : Node) : (r.node n).checks = n.checks.map r.check := by
  induction n with
  | number | var => rfl
  | binary op left right ihl ihr => simp [node, Node.checks, ihl, ihr]
  | bind name value ih => simp [node, Node.checks, check, ih]
  | loop k condition body ihc ihb => simp [node, Node.checks, check, ihc, ihb]
  | branch k condition consequent alternative ihc iht ihe =>
    simp [node, Node.checks, check, ihc, iht, ihe]
  | lambda first second body ih => simpa [node, Node.checks] using ih

lemma flatMap_code_map_node (nodes : List Node) :
    (nodes.map r.node).flatMap Node.code = (nodes.flatMap Node.code).map r.instr := by
  simp only [List.flatMap_map, code_node, List.map_flatMap]

lemma flatMap_checks_map_node (nodes : List Node) :
    (nodes.map r.node).flatMap Node.checks = (nodes.flatMap Node.checks).map r.check := by
  simp only [List.flatMap_map, checks_node, List.map_flatMap]

/-! ## The first failing check -/

lemma fault_check (c : Check) : (r.check c).fault = r.error c.fault := by
  cases c with
  | name n => rfl
  | label l => exact congrArg Error.duplicateLabel (r.text_text l).symm

variable {r}

/-- A label is claimed again after relabelling just when it was claimed before. -/
lemma fails_check_iff {g : Generator} {earlier : List Check} {c : Check}
    (h : Set.InjOn r.label {l | .label l ∈ earlier ++ [c]}) :
    (r.check c).Fails g (Check.texts (earlier.map r.check)) ↔ c.Fails g (Check.texts earlier) := by
  cases c with
  | name n => exact Iff.rfl
  | label l =>
    have hfails (checks : List Check) (l : Label) :
        (Check.label l).Fails g (Check.texts checks) ↔ .label l ∈ checks := Check.text_mem_texts_iff
    rw [check, hfails, hfails, List.mem_map]
    constructor
    · rintro ⟨c, hc, heq⟩
      cases c with
      | name n => exact absurd heq (by simp [check])
      | label l' =>
        have hlabel : r.label l' = r.label l := Check.label.inj heq
        rwa [← h (by simp [hc]) (by simp) hlabel]
    · intro hl
      exact ⟨_, hl, rfl⟩

/-- A relabelling that is injective on the labels of the checks keeps the place of the first
failing check. -/
lemma firstFailing?_map_check {g : Generator} (earlier : List Check) {checks : List Check}
    (h : Set.InjOn r.label {l | .label l ∈ earlier ++ checks}) :
    Check.firstFailing? g (Check.texts (earlier.map r.check)) (checks.map r.check)
      = (Check.firstFailing? g (Check.texts earlier) checks).map r.check := by
  -- the earlier checks are carried along, because they hold the labels that are claimed
  induction checks generalizing earlier with
  | nil => rfl
  | cons c checks ih =>
    have hsub : {l | Check.label l ∈ earlier ++ [c]} ⊆ {l | .label l ∈ earlier ++ c :: checks} := by
      intro l hl
      rcases List.mem_append.mp hl with hl | hl
      · exact List.mem_append_left _ hl
      · exact List.mem_append_right _ (List.mem_singleton.mp hl ▸ List.mem_cons_self)
    have hc := fails_check_iff (g := g) (h.mono hsub)
    rw [List.map_cons]
    by_cases hfails : c.Fails g (Check.texts earlier)
    · rw [Check.firstFailing?_cons_of_fails hfails,
        Check.firstFailing?_cons_of_fails (hc.mpr hfails), Option.map_some]
    · rw [Check.firstFailing?_cons_of_not_fails hfails,
        Check.firstFailing?_cons_of_not_fails (mt hc.mp hfails), ← Check.texts_append,
        ← Check.texts_append, ← List.map_singleton, ← List.map_append]
      refine ih (earlier ++ [c]) ?_
      rwa [List.append_assoc, List.singleton_append]

variable (r)

/-- The relabelling does not identify the indices of two loops or of two conditionals of the
expressions. -/
structure InjectiveOn (nodes : List Node) : Prop where
  loop : Set.InjOn r.loop {k | k ∈ nodes.flatMap Node.loopIndices}
  branch : Set.InjOn r.branch {k | k ∈ nodes.flatMap Node.branchIndices}

variable {r}

/-- Then it does not identify two of their labels. -/
lemma InjectiveOn.label {nodes : List Node} (h : r.InjectiveOn nodes) :
    Set.InjOn r.label {l | .label l ∈ nodes.flatMap Node.checks} := by
  rintro ⟨f, i⟩ hl ⟨f', j⟩ hl' heq
  obtain ⟨rfl, hij⟩ := Label.mk.inj heq
  have hi := Node.index_mem_of_label_mem hl
  have hj := Node.index_mem_of_label_mem hl'
  have hsame : i = j := by
    cases f with
    | loopStart | loopEnd => exact h.loop hi hj hij
    | branchElse | branchEnd => exact h.branch hi hj hij
  rw [hsame]

/-- Lowering relabelled expressions gives the relabelled result. -/
lemma lowerAll_map_node (g : Generator) {nodes : List Node} (h : r.InjectiveOn nodes) :
    (g.lowerAll (nodes.map r.node)).result
      = r.result (List.map r.instr) (g.lowerAll nodes).result := by
  have hfirst : Check.firstFailing? g [] ((nodes.flatMap Node.checks).map r.check)
      = (Check.firstFailing? g [] (nodes.flatMap Node.checks)).map r.check :=
    firstFailing?_map_check [] h.label
  rw [Generator.lowerAll_result, Generator.lowerAll_result, flatMap_checks_map_node,
    flatMap_code_map_node, hfirst]
  cases Check.firstFailing? g [] (nodes.flatMap Node.checks) with
  | none => rfl
  | some c => exact congrArg Except.error (r.fault_check c)

/-! ## Listings -/

lemma line_text {x : Instr} (h : x.Readable) : r.line x.text = (r.instr x).text := by
  rw [line, Instr.read_text h, if_pos rfl]

lemma line_dataLine (name : String) : r.line (Program.dataLine name) = Program.dataLine name :=
  if_neg (Program.text_ne_dataLine _ name)

lemma line_of_read_output {t : String} (h : Instr.read t = .output) : r.line t = t := by
  rw [line, h]
  split
  · assumption
  · rfl

/-- The lines of readable code are relabelled, and the others stay as they are. -/
lemma map_line_layout (data : List String) {code : List Instr} (h : ∀ x ∈ code, x.Readable) :
    (Program.layout data code).map r.line = Program.layout data (code.map r.instr) := by
  have hdata : (data.map Program.dataLine).map r.line = data.map Program.dataLine := by
    rw [List.map_map]
    exact List.map_congr_left fun name _ => line_dataLine name
  have hcode : (code.map Instr.text).map r.line = (code.map r.instr).map Instr.text := by
    rw [List.map_map, List.map_map]
    exact List.map_congr_left fun x hx => line_text (h x hx)
  have hfixed : Program.fixedLines.map r.line = Program.fixedLines := by
    have houtput : ∀ t ∈ Program.fixedLines, Instr.read t = .output := by decide
    refine (List.map_congr_left ?_).trans (List.map_id _)
    intro t ht
    exact line_of_read_output (houtput t ht)
  simp only [Program.fixedLines, List.map_cons, List.map_nil, List.cons.injEq] at hfixed
  obtain ⟨hsegment, hends, hstart, hout, hend, -⟩ := hfixed
  rw [Program.layout_eq, Program.layout_eq]
  simp only [List.map_cons, List.map_append, List.map_nil, hdata, hcode, hsegment, hends, hstart,
    hout, hend]

/-- Assembling a relabelled program gives the relabelled result. -/
lemma assemble_program {p : Program} (hnames : p.WellNamed) (h : r.InjectiveOn p.fragments)
    (options : Options) :
    (r.program p).assemble options = r.result r.listing (p.assemble options) := by
  have hgenerator : (r.program p).generator options = p.generator options := rfl
  have hlower : ((p.generator options).lowerAll (r.program p).fragments).result
      = r.result (List.map r.instr) ((p.generator options).lowerAll p.fragments).result :=
    lowerAll_map_node _ h
  rw [Program.assemble_eq_map, Program.assemble_eq_map, hgenerator, hlower]
  cases hresult : ((p.generator options).lowerAll p.fragments).result with
  | error e => rfl
  | ok code =>
    obtain ⟨-, rfl⟩ := Generator.lowerAll_eq_ok_iff.mp hresult
    have hlines := map_line_layout (r := r) p.data hnames.readable
    exact congrArg (fun lines => Except.ok (Listing.mk lines)) hlines.symm

/-! ## Demos -/

/-- The indices shifted by what an allocator has given already. -/
def shift (labels : Allocator) : Relabelling where
  loop k := k + labels.nextLoop
  branch k := k + labels.nextBranch

lemma injectiveOn_shift (labels : Allocator) (nodes : List Node) :
    (shift labels).InjectiveOn nodes where
  loop _ _ _ _ h := UInt64.add_left_inj labels.nextLoop |>.mp h
  branch _ _ _ _ h := UInt64.add_left_inj labels.nextBranch |>.mp h

/-- A relabelled demo is the demo built from the allocator that gives the new indices. -/
lemma program_build {demo : Demo} (h : demo ∈ Demo.all) :
    r.program (demo.build .start).1 = (demo.build ⟨r.loop 0, r.branch 0⟩).1 := by
  have hdata := (Demo.names_build h ⟨r.loop 0, r.branch 0⟩).1
  have hfragments : (demo.build .start).1.fragments.map r.node
      = (demo.build ⟨r.loop 0, r.branch 0⟩).1.fragments := by
    simp only [Demo.all, List.mem_cons, List.not_mem_nil, or_false] at h
    rcases h with rfl | rfl | rfl <;> rfl
  rw [program, hfragments, ← hdata]

lemma program_shift_build {demo : Demo} (h : demo ∈ Demo.all) (labels : Allocator) :
    (shift labels).program (demo.build .start).1 = (demo.build labels).1 := by
  have hloop : (shift labels).loop 0 = labels.nextLoop := UInt64.zero_add _
  have hbranch : (shift labels).branch 0 = labels.nextBranch := UInt64.zero_add _
  rw [program_build h, hloop, hbranch]

end Relabelling

/-- **Indices of labels are opaque.**  Lowering expressions with changed indices gives the same
result with its labels changed, code and fault alike, as long as the change does not identify
two indices of loops or two indices of conditionals that occur.  So a demo built from any
allocator is assembled to the listing that it has from a new allocator, with its indices
shifted. -/
theorem Generator.lowerAll_relabelled :
    (∀ (g : Generator) (r : Relabelling) (nodes : List Node), r.InjectiveOn nodes →
      (g.lowerAll (nodes.map r.node)).result
        = r.result (List.map r.instr) (g.lowerAll nodes).result) ∧
    ∀ demo ∈ Demo.all, ∀ (labels : Allocator) (options : Options),
      (demo.build labels).1.assemble options
        = (Relabelling.shift labels).result (Relabelling.shift labels).listing
            ((demo.build .start).1.assemble options) := by
  constructor
  · intro g r nodes h
    exact Relabelling.lowerAll_map_node g h
  · intro demo hdemo labels options
    rw [← Relabelling.program_shift_build hdemo labels]
    exact Relabelling.assemble_program (Demo.wellNamed_build hdemo .start)
      (Relabelling.injectiveOn_shift labels _) options

/-- A relabelling that moves the index 9 of a loop to 10, and makes all other indices of loops
equal. -/
def Relabelling.nineToTen : Relabelling where
  loop k := if k = 9 then 10 else 3
  branch k := k

/-- Three loops, two of which have the index 9. -/
def Node.nineTwice : List Node :=
  [.loop 9 (.var "x") (.number 1), .loop 0 (.loop 9 (.var "y") (.number 2)) (.var "z")]

theorem Generator.lowerAll_nineTwice :
    (initial.lowerAll Node.nineTwice).result = .error (.duplicateLabel "while_start_9") ∧
      (initial.lowerAll (Node.nineTwice.map Relabelling.nineToTen.node)).result
        = .error (.duplicateLabel "while_start_10") ∧
      ∃ listing, (Demo.gcdLoop ⟨18446744073709551615, 7⟩).1.assemble {} = .ok listing ∧
        listing.lines[11]? = some "while_start_18446744073709551615:" := by
  obtain ⟨hlower, hdemos⟩ := lowerAll_relabelled
  have hfirst : (initial.lowerAll Node.nineTwice).result
      = .error (.duplicateLabel "while_start_9") := rfl
  have hinjective : Relabelling.nineToTen.InjectiveOn Node.nineTwice := by
    have hindex {i : UInt64} (hi : i ∈ Node.nineTwice.flatMap Node.loopIndices) :
        i = 9 ∨ i = 0 := by
      simp only [Node.nineTwice, Node.loopIndices, List.flatMap_cons, List.flatMap_nil,
        List.append_nil, List.mem_append, List.mem_cons, List.not_mem_nil, or_false] at hi
      tauto
    refine ⟨?_, fun _ hi => absurd hi List.not_mem_nil⟩
    intro i hi j hj h
    rcases hindex hi with rfl | rfl <;> rcases hindex hj with rfl | rfl
    · rfl
    · exact absurd h (by decide)
    · exact absurd h (by decide)
    · rfl
  have hsecond := hlower initial Relabelling.nineToTen Node.nineTwice hinjective
  rw [hfirst] at hsecond
  have hdemo := hdemos _ (.tail _ (.head _)) ⟨18446744073709551615, 7⟩ {}
  exact ⟨hfirst, hsecond.trans rfl, _, hdemo.trans rfl, rfl⟩

end Accumulator
