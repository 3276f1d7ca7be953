/-
Expressions built with one allocator.

Expressions are built bottom-up: a constructor takes the expressions that become its parts, and
these are used up.  A `Workbench` holds an allocator and the expressions that have been built
and not used yet, and a `Call` is one call of a constructor, or a draw from the allocator whose
index is thrown away.  Loops and conditionals get their indices from the allocator of the bench,
whose counters start anywhere and wrap around after `2 ^ 64` draws.

A call takes some expressions from the bench, and the indices of what it makes are the indices
of these parts together with the index that it draws (`call_accounts`).  So after any calls the
indices on the bench are among the drawn ones, each used at most once (`foldlM_accounts`), and up to
`2 ^ 64` draws give different indices (`drawn_nodup`).
-/
import Accumulator.Proofs.Assembling
import Mathlib.Data.List.Flatten
import Mathlib.Data.List.Perm.Subperm

namespace Accumulator

/-! ## The bench -/

/-- An allocator, and the expressions that have been built and not used. -/
structure Workbench where
  labels : Allocator
  nodes : List Node
deriving DecidableEq, Repr

/-- A call of a constructor, or a draw.  A part is given by its place among the expressions that
are at hand when it is taken. -/
inductive Call where
  | number (value : Int64)
  | var (name : String)
  | binary (op : Operator) (left right : Nat)
  /-- Apply the operator with a given symbol; if there is none, the operands are lost. -/
  | tagged (symbol : String) (left right : Nat)
  | bind (name : String) (value : Nat)
  | loop (condition body : Nat)
  | branch (condition consequent alternative : Nat)
  | lambda (first second : String) (body : Nat)
  | drawLoop
  | drawBranch
deriving DecidableEq, Repr

namespace Call

/-- Whether a call draws the index of a loop. -/
@[simp] def drawsLoop : Call → Bool
  | loop _ _ | drawLoop => true
  | _ => false

/-- Whether a call draws the index of a conditional. -/
@[simp] def drawsBranch : Call → Bool
  | branch _ _ _ | drawBranch => true
  | _ => false

/-- Whether a call draws an index for the labels of a family. -/
@[simp] def draws (call : Call) : LabelFamily → Bool
  | .loopStart | .loopEnd => call.drawsLoop
  | .branchElse | .branchEnd => call.drawsBranch

end Call

namespace Workbench

/-- Take the expression at a place. -/
def pick (i : Nat) (nodes : List Node) : Option (Node × List Node) :=
  nodes[i]?.map fun node => (node, nodes.eraseIdx i)

/-- The bench after a call; there is none if a part is not at hand. -/
def call (bench : Workbench) : Call → Option Workbench
  | .number value => some { bench with nodes := .number value :: bench.nodes }
  | .var name => some { bench with nodes := .var name :: bench.nodes }
  | .binary op i j => do
    let (left, rest) ← pick i bench.nodes
    let (right, rest) ← pick j rest
    return { bench with nodes := .binary op left right :: rest }
  | .tagged symbol i j => do
    let (left, rest) ← pick i bench.nodes
    let (right, rest) ← pick j rest
    match Operator.parse symbol with
    | .ok op => return { bench with nodes := .binary op left right :: rest }
    | .error _ => return { bench with nodes := rest }
  | .bind name i => do
    let (value, rest) ← pick i bench.nodes
    return { bench with nodes := .bind name value :: rest }
  | .loop i j => do
    let (condition, rest) ← pick i bench.nodes
    let (body, rest) ← pick j rest
    let (node, labels) := Node.drawLoop bench.labels condition body
    return { labels, nodes := node :: rest }
  | .branch i j k => do
    let (condition, rest) ← pick i bench.nodes
    let (consequent, rest) ← pick j rest
    let (alternative, rest) ← pick k rest
    let (node, labels) := Node.drawBranch bench.labels condition consequent alternative
    return { labels, nodes := node :: rest }
  | .lambda first second i => do
    let (body, rest) ← pick i bench.nodes
    return { bench with nodes := .lambda first second body :: rest }
  | .drawLoop => some { bench with labels := bench.labels.drawLoop.2 }
  | .drawBranch => some { bench with labels := bench.labels.drawBranch.2 }

/-- The bench after calls made one after another, at first with nothing at hand. -/
def run (labels : Allocator) (calls : List Call) : Option Workbench :=
  calls.foldlM call { labels, nodes := [] }

end Workbench

/-! ## Indices -/

/-- The next index for the labels of a family. -/
@[simp] def Allocator.next (labels : Allocator) : LabelFamily → UInt64
  | .loopStart | .loopEnd => labels.nextLoop
  | .branchElse | .branchEnd => labels.nextBranch

namespace Node

variable (family : LabelFamily)

@[simp] lemma indices_number (value : Int64) : (number value).indices family = [] := by
  cases family <;> rfl

@[simp] lemma indices_var (name : String) : (var name).indices family = [] := by
  cases family <;> rfl

@[simp] lemma indices_binary (op : Operator) (left right : Node) :
    (binary op left right).indices family = left.indices family ++ right.indices family := by
  cases family <;> rfl

@[simp] lemma indices_bind (name : String) (value : Node) :
    (bind name value).indices family = value.indices family := by
  cases family <;> rfl

@[simp] lemma indices_lambda (first second : String) (body : Node) :
    (lambda first second body).indices family = body.indices family := by
  cases family <;> rfl

end Node

/-- The indices that a number of draws give, from the first one on. -/
def drawn (first : UInt64) (count : Nat) : List UInt64 :=
  (List.range count).map fun i => first + UInt64.ofNat i

lemma drawn_add (first : UInt64) (m n : Nat) :
    drawn first (m + n) = drawn first m ++ drawn (first + UInt64.ofNat m) n := by
  simp [drawn, List.range_add, UInt64.ofNat_add, UInt64.add_assoc, Function.comp_def]

/-- Until the counter has gone round, all draws are different. -/
lemma drawn_nodup (first : UInt64) {count : Nat} (h : count ≤ UInt64.size) :
    (drawn first count).Nodup := by
  refine List.Nodup.map_on (fun i hi j hj hij => ?_) List.nodup_range
  have hi := List.mem_range.mp hi
  have hj := List.mem_range.mp hj
  have hnat : (UInt64.ofNat i).toNat = (UInt64.ofNat j).toNat :=
    congrArg UInt64.toNat (UInt64.add_right_inj first |>.mp hij)
  -- both offsets are below `2 ^ 64`, so they are their own remainders
  rw [UInt64.toNat_ofNat', UInt64.toNat_ofNat'] at hnat
  rw [UInt64.size] at h
  omega

/-- The indices of one family in a list of expressions. -/
def indicesOf (family : LabelFamily) (nodes : List Node) : List UInt64 :=
  nodes.flatMap fun node => node.indices family

@[simp] lemma indicesOf_nil (family : LabelFamily) : indicesOf family [] = [] := rfl

@[simp] lemma indicesOf_cons (family : LabelFamily) (node : Node) (nodes : List Node) :
    indicesOf family (node :: nodes) = node.indices family ++ indicesOf family nodes := rfl

@[simp] lemma indicesOf_append (family : LabelFamily) (xs ys : List Node) :
    indicesOf family (xs ++ ys) = indicesOf family xs ++ indicesOf family ys :=
  List.flatMap_append

lemma indicesOf_subperm {xs ys : List Node} (family : LabelFamily) (h : xs.Subperm ys) :
    (indicesOf family xs).Subperm (indicesOf family ys) := by
  obtain ⟨zs, hperm, hsub⟩ := h
  exact ⟨indicesOf family zs, hperm.flatMap_right _, hsub.flatMap _⟩

namespace Workbench

variable {bench next : Workbench} {labels : Allocator} {calls : List Call}

lemma pick_perm {i : Nat} {nodes rest : List Node} {node : Node}
    (h : pick i nodes = some (node, rest)) : nodes.Perm (node :: rest) := by
  obtain ⟨a, ha, hpair⟩ := Option.map_eq_some_iff.mp h
  obtain ⟨rfl, rfl⟩ := Prod.mk.inj hpair
  obtain ⟨hi, rfl⟩ := List.getElem?_eq_some_iff.mp ha
  exact (List.getElem_cons_eraseIdx_perm hi).symm

/-- What follows on taking an expression has the expression and the others at its disposal. -/
lemma exists_of_pick {α : Type} {i : Nat} {nodes : List Node} {f : Node × List Node → Option α}
    {a : α} (h : pick i nodes >>= f = some a) :
    ∃ node rest, nodes.Perm (node :: rest) ∧ f (node, rest) = some a := by
  obtain ⟨⟨node, rest⟩, hpick, hf⟩ := Option.bind_eq_some_iff.mp h
  exact ⟨node, rest, pick_perm hpick, hf⟩

/-- The call keeps account of the indices: those on the bench after it are those before it and
the one that it draws, if it draws one, and the counter moves on by the draw. -/
def Accounts (bench : Workbench) (c : Call) (next : Workbench) (family : LabelFamily) : Prop :=
  (indicesOf family next.nodes).Subperm
      (drawn (bench.labels.next family) (c.draws family).toNat ++ indicesOf family bench.nodes) ∧
    next.labels.next family = bench.labels.next family + UInt64.ofNat (c.draws family).toNat

/-- It is enough to compare what a call makes with the parts that it takes. -/
lemma accounts_of_parts {c : Call} {family : LabelFamily} {rest : List Node}
    (parts made : List Node) (hperm : bench.nodes.Perm (parts ++ rest))
    (hmade : (indicesOf family made).Subperm
      (drawn (bench.labels.next family) (c.draws family).toNat ++ indicesOf family parts))
    (hlabels : labels.next family
      = bench.labels.next family + UInt64.ofNat (c.draws family).toNat) :
    Accounts bench c ⟨labels, made ++ rest⟩ family := by
  refine ⟨?_, hlabels⟩
  have hnodes : (indicesOf family bench.nodes).Perm
      (indicesOf family parts ++ indicesOf family rest) := by
    rw [← indicesOf_append]
    exact hperm.flatMap_right _
  rw [indicesOf_append, (hnodes.append_left _).subperm_left, ← List.append_assoc]
  exact (List.subperm_append_right _).mpr hmade

/-- Every call keeps account of the indices. -/
lemma call_accounts {c : Call} (h : bench.call c = some next) (family : LabelFamily) :
    Accounts bench c next family := by
  cases c with
  | number value =>
    obtain rfl := Option.some.inj h
    refine accounts_of_parts [] [.number value] (.refl _) ?_ ?_
    all_goals cases family <;> simp
  | var name =>
    obtain rfl := Option.some.inj h
    refine accounts_of_parts [] [.var name] (.refl _) ?_ ?_
    all_goals cases family <;> simp
  | binary op i j =>
    obtain ⟨left, rest, hl, h⟩ := exists_of_pick h
    obtain ⟨right, rest', hr, h⟩ := exists_of_pick h
    obtain rfl := Option.some.inj h
    have hperm := hl.trans (hr.cons left)
    refine accounts_of_parts [left, right] [.binary op left right] hperm ?_ ?_
    all_goals cases family <;> simp [drawn, List.Subperm.refl]
  | tagged symbol i j =>
    obtain ⟨left, rest, hl, h⟩ := exists_of_pick h
    obtain ⟨right, rest', hr, h⟩ := exists_of_pick h
    have hperm := hl.trans (hr.cons left)
    cases hop : Operator.parse symbol with
    | ok op =>
      simp only [hop] at h
      obtain rfl := Option.some.inj h
      refine accounts_of_parts [left, right] [.binary op left right] hperm ?_ ?_
      all_goals cases family <;> simp [drawn, List.Subperm.refl]
    | error e =>
      -- the operands are lost, so their indices are not used again
      simp only [hop] at h
      obtain rfl := Option.some.inj h
      refine accounts_of_parts [left, right] [] hperm ?_ ?_
      all_goals cases family <;> simp
  | bind name i =>
    obtain ⟨value, rest, hv, h⟩ := exists_of_pick h
    obtain rfl := Option.some.inj h
    refine accounts_of_parts [value] [.bind name value] hv ?_ ?_
    all_goals cases family <;> simp [drawn, List.Subperm.refl]
  | loop i j =>
    obtain ⟨condition, rest, hc, h⟩ := exists_of_pick h
    obtain ⟨body, rest', hb, h⟩ := exists_of_pick h
    obtain rfl := Option.some.inj h
    have hperm := hc.trans (hb.cons condition)
    refine accounts_of_parts [condition, body]
      [.loop bench.labels.nextLoop condition body] hperm ?_ ?_
    all_goals
      cases family <;> simp [drawn, List.Subperm.refl, Node.indices, Node.loopIndices,
        Node.branchIndices]
  | branch i j k =>
    obtain ⟨condition, rest, hc, h⟩ := exists_of_pick h
    obtain ⟨consequent, rest', ht, h⟩ := exists_of_pick h
    obtain ⟨alternative, rest'', he, h⟩ := exists_of_pick h
    obtain rfl := Option.some.inj h
    have hperm := hc.trans ((ht.trans (he.cons consequent)).cons condition)
    refine accounts_of_parts [condition, consequent, alternative]
      [.branch bench.labels.nextBranch condition consequent alternative] hperm ?_ ?_
    all_goals
      cases family <;> simp [drawn, List.Subperm.refl, Node.indices, Node.loopIndices,
        Node.branchIndices]
  | lambda first second i =>
    obtain ⟨body, rest, hb, h⟩ := exists_of_pick h
    obtain rfl := Option.some.inj h
    refine accounts_of_parts [body] [.lambda first second body] hb ?_ ?_
    all_goals cases family <;> simp [drawn, List.Subperm.refl]
  | drawLoop =>
    obtain rfl := Option.some.inj h
    refine accounts_of_parts [] [] (.refl _) ?_ ?_
    all_goals cases family <;> simp [Allocator.drawLoop]
  | drawBranch =>
    obtain rfl := Option.some.inj h
    refine accounts_of_parts [] [] (.refl _) ?_ ?_
    all_goals cases family <;> simp [Allocator.drawBranch]

/-- After any calls the indices on the bench are the drawn ones and those that were there
before, each at most once. -/
lemma foldlM_accounts (h : calls.foldlM call bench = some next) (family : LabelFamily) :
    (indicesOf family next.nodes).Subperm
      (drawn (bench.labels.next family) (calls.countP fun c => c.draws family)
        ++ indicesOf family bench.nodes) := by
  induction calls generalizing bench with
  | nil =>
    obtain rfl := Option.some.inj h
    simp [drawn, List.Subperm.refl]
  | cons c calls ih =>
    rw [List.foldlM_cons, Option.bind_eq_bind, Option.bind_eq_some_iff] at h
    obtain ⟨mid, hcall, hrest⟩ := h
    obtain ⟨hmid, hnext⟩ := call_accounts hcall family
    have hcount : (c :: calls).countP (fun c => c.draws family)
        = (c.draws family).toNat + calls.countP fun c => c.draws family := by
      rw [List.countP_cons, Nat.add_comm]
      cases c.draws family <;> rfl
    -- the other calls draw on where the first one has left the counter
    rw [hcount, drawn_add, ← hnext, List.append_assoc,
      List.perm_append_comm_assoc _ _ _ |>.subperm_left]
    exact (ih hrest).trans ((List.subperm_append_left _).mpr hmid)

/-- Expressions from one bench have different indices, unless a counter has gone round. -/
lemma indicesOf_nodup (hrun : run labels calls = some bench) {fragments : List Node}
    (hfragments : fragments.Subperm bench.nodes) (family : LabelFamily)
    (hcount : (calls.countP fun c => c.draws family) ≤ UInt64.size) :
    (indicesOf family fragments).Nodup := by
  have hdrawn := foldlM_accounts hrun family
  rw [indicesOf_nil, List.append_nil] at hdrawn
  obtain ⟨used, hperm, hsub⟩ := (indicesOf_subperm family hfragments).trans hdrawn
  exact hperm.nodup_iff.mp ((drawn_nodup _ hcount).sublist hsub)

end Workbench

/-! ## No label twice -/

/-- Expressions with different labels are lowered without a duplicate. -/
lemma Generator.lowerAll_ne_duplicateLabel {g : Generator} {nodes : List Node}
    (hnodup : (nodes.flatMap Node.labels).Nodup) (l : String) :
    (g.lowerAll nodes).result ≠ .error (.duplicateLabel l) := by
  intro h
  obtain ⟨c, hc, hfault⟩ := lowerAll_eq_error_iff.mp h
  obtain ⟨earlier, later, heq, -, hfails⟩ := Check.firstFailing?_eq_some_iff.mp hc
  cases c with
  | name n => simp [Check.fault] at hfault
  | label label =>
    -- a label fails only if its text stands among the earlier ones, a second time
    have htexts : (Check.texts (nodes.flatMap Node.checks)).Nodup := by
      rw [Check.texts_flatMap_checks]
      exact hnodup.map fun l l' => Label.text_injective
    rw [heq, Check.texts_append, Check.texts_cons_label] at htexts
    exact (List.nodup_append.mp htexts).2.2 _ hfails _ (by simp) rfl

/-- **Trees from one allocator never collide.**  Expressions that were built with one allocator,
each used at most once, are lowered into one output without a duplicate label, in any order and
by any generator, and a program made of them is assembled without one.  The counters may start
anywhere, and up to `2 ^ 64` draws of each kind are allowed. -/
theorem Workbench.no_duplicateLabel {labels : Allocator} {calls : List Call} {bench : Workbench}
    (hrun : run labels calls = some bench)
    (hloops : calls.countP Call.drawsLoop ≤ UInt64.size)
    (hbranches : calls.countP Call.drawsBranch ≤ UInt64.size)
    {fragments : List Node} (hfragments : fragments.Subperm bench.nodes) (l : String) :
    (∀ g : Generator, (g.lowerAll fragments).result ≠ .error (.duplicateLabel l)) ∧
      ∀ data options,
        Program.assemble { data, fragments } options ≠ .error (.duplicateLabel l) := by
  have hnodup : (fragments.flatMap Node.labels).Nodup :=
    (Node.labels_nodup_iff fragments).mpr
      ⟨indicesOf_nodup hrun hfragments .loopStart hloops,
        indicesOf_nodup hrun hfragments .branchElse hbranches⟩
  refine ⟨fun g => Generator.lowerAll_ne_duplicateLabel hnodup l, fun data options h => ?_⟩
  exact Generator.lowerAll_ne_duplicateLabel hnodup l (Program.assemble_eq_error_iff.mp h)

/-- A loop inside a conditional, a draw that is thrown away, and a second loop. -/
def Call.twoLoops : List Call :=
  [.var "n", .number 0, .loop 1 0, .drawLoop, .var "c", .number 1, .branch 1 1 0, .var "m",
   .number 2, .loop 1 0]

/-- The first loop gets the last index before the counter wraps around, and the second loop, one
draw later, the index one. -/
theorem Workbench.no_duplicateLabel_twoLoops :
    ∃ bench first second, run ⟨0xffffffffffffffff, 7⟩ Call.twoLoops = some bench ∧
      bench.nodes = [second, first] ∧
      first = .branch 7 (.var "c") (.loop 0xffffffffffffffff (.var "n") (.number 0)) (.number 1) ∧
      second = .loop 1 (.var "m") (.number 2) ∧
      ∀ l (g : Generator), (g.lowerAll [first, second]).result ≠ .error (.duplicateLabel l) := by
  have hrun : run ⟨0xffffffffffffffff, 7⟩ Call.twoLoops = some _ := rfl
  refine ⟨_, _, _, hrun, rfl, rfl, rfl, fun l g => ?_⟩
  exact (no_duplicateLabel hrun (by decide) (by decide) (List.Perm.swap _ _ _).subperm l).1 g

end Accumulator
