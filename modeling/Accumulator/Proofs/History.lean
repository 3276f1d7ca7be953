/-
What the history of a generator leaves visible.

A generator is used again and again: it lowers expressions, fails half-way, is copied, gets new
options and new names.  Its answers nevertheless depend on three things only, collected in a
`View`: whether it is strict, the names that it admits, and the labels that are claimed.  Views
answer the same calls as generators do, with neither code nor options at hand:

* setting the options changes whether a view is strict, and not the admitted names;
* lowering an expression into the current output claims labels up to the first fault, and these
  stay claimed;
* lowering expressions into an output of their own starts without claimed labels, and leaves the
  labels of the expressions claimed if it succeeds, and none if it fails.

A session is a list of turns on generators that are kept under numbers.  The map from
generators to their views commutes with every call (`ask_view`), hence with every session
(`Desk.Maps.run`), so all replies of generators are those of views.
-/
import Accumulator.Proofs.FirstFault
import Mathlib.Logic.Function.Basic

namespace Accumulator

/-! ## Sessions -/

/-- A call on one generator.  `lowerNode` goes on with the current output, and `lower`, `lowerAll`
and `generate` make an output of their own. -/
inductive Query where
  | setOptions (options : Options)
  | declare (name : String)
  | checkName (name : String)
  | emit (instr : Instr)
  | lowerNode (node : Node)
  | lower (node : Node)
  | lowerAll (nodes : List Node)
  | generate (node : Node)

/-- What a call gives back, if it gives anything back. -/
inductive Query.Answer where
  | done
  | checked (result : Except Error Unit)
  | code (result : Except Error (List Instr))
  | lines (result : Except Error (List String))

/-- Whether an answer is not a fault. -/
def Query.Answer.isOk : Query.Answer → Bool
  | done => true
  | checked result => result.isOk
  | code result => result.isOk
  | lines result => result.isOk

/-- The expressions for which a call makes an output of their own, if it does so. -/
def Query.output? : Query → Option (List Node)
  | lower node | generate node => some [node]
  | lowerAll nodes => some nodes
  | _ => none

/-- Everything that can be seen of a call: the events that it reports, and its answer. -/
structure Reply where
  log : List Event := []
  answer : Query.Answer := .done

/-- A turn of a session.  Objects are kept under numbers. -/
inductive Turn where
  /-- Make an object with given options, in place of the object that had the number. -/
  | make (number : Nat) (options : Options)
  | copy (source target : Nat)
  | ask (number : Nat) (query : Query)

/-- A kind of objects on which the calls can be made. -/
structure Desk (σ : Type) where
  /-- The object with given options. -/
  make : Options → σ
  /-- The object after a call, and the reply. -/
  ask : σ → Query → σ × Reply

namespace Desk

variable {σ τ : Type}

/-- The objects after a turn, and the reply; there is none if the object does not exist. -/
def serve (desk : Desk σ) (store : Nat → Option σ) : Turn → (Nat → Option σ) × Option Reply
  | .make number options =>
    (Function.update store number (some (desk.make options)), some {})
  | .copy source target =>
    match store source with
    | some object => (Function.update store target (some object), some {})
    | none => (store, none)
  | .ask number query =>
    match store number with
    | some object =>
      let (after, reply) := desk.ask object query
      (Function.update store number (some after), some reply)
    | none => (store, none)

/-- The objects after a session, and the replies in order. -/
def run (desk : Desk σ) (store : Nat → Option σ) :
    List Turn → (Nat → Option σ) × List (Option Reply)
  | [] => (store, [])
  | turn :: turns =>
    let (store, reply) := desk.serve store turn
    let (store, replies) := desk.run store turns
    (store, reply :: replies)

/-- A map between objects of two kinds that cannot be told from outside. -/
structure Maps (desk : Desk σ) (desk' : Desk τ) (f : σ → τ) : Prop where
  /-- It takes new objects to new objects. -/
  make : ∀ options, f (desk.make options) = desk'.make options
  /-- It commutes with every call, and the replies are the same. -/
  ask : ∀ object query,
    desk'.ask (f object) query = (f (desk.ask object query).1, (desk.ask object query).2)

variable {desk : Desk σ} {desk' : Desk τ} {f : σ → τ}

/-- A map that commutes with every call commutes with every turn. -/
lemma Maps.serve (h : Maps desk desk' f) (store : Nat → Option σ) (turn : Turn) :
    desk'.serve (Option.map f ∘ store) turn
      = (Option.map f ∘ (desk.serve store turn).1, (desk.serve store turn).2) := by
  cases turn with
  | make number options =>
    simp only [Desk.serve, Function.comp_update, Option.map_some, h.make]
  | copy source target =>
    cases hsource : store source with
    | none => simp [Desk.serve, hsource]
    | some object => simp [Desk.serve, hsource, Function.comp_update]
  | ask number query =>
    cases hnumber : store number with
    | none => simp [Desk.serve, hnumber]
    | some object => simp [Desk.serve, hnumber, Function.comp_update, h.ask]

/-- A map that commutes with every call commutes with every session. -/
lemma Maps.run (h : Maps desk desk' f) (store : Nat → Option σ) (turns : List Turn) :
    desk'.run (Option.map f ∘ store) turns
      = (Option.map f ∘ (desk.run store turns).1, (desk.run store turns).2) := by
  induction turns generalizing store with
  | nil => rfl
  | cons turn turns ih => simp only [Desk.run, h.serve, ih]

end Desk

/-! ## Generators -/

/-- A call on a generator. -/
def Generator.ask (g : Generator) : Query → Generator × Reply
  | .setOptions options => (g.setOptions options, {})
  | .declare name => (g.declare name, {})
  | .checkName name => (g, { answer := .checked (g.checkName name) })
  | .emit instr => (g.emit instr, {})
  | .lowerNode node =>
    let outcome := g.lowerNode node
    (outcome.generator, { log := outcome.log, answer := .checked outcome.result })
  | .lower node =>
    let outcome := g.lower node
    (outcome.generator, { log := outcome.log, answer := .code outcome.result })
  | .lowerAll nodes =>
    let outcome := g.lowerAll nodes
    (outcome.generator, { log := outcome.log, answer := .code outcome.result })
  | .generate node =>
    let outcome := g.generate node
    (outcome.generator, { log := outcome.log, answer := .lines outcome.result })

/-- Generators as objects of a session. -/
def Desk.generators : Desk Generator where
  make := Generator.ofOptions
  ask := Generator.ask

/-! ## Views -/

/-- What the history of a generator leaves visible. -/
structure View where
  strict : Bool
  symbols : NameSet
  claimed : NameSet
deriving DecidableEq, Repr

namespace View

/-- Whether a name passes. -/
def checkName (v : View) (name : String) : Except Error Unit :=
  if v.strict = true ∧ name ∉ v.symbols then .error (.undefinedVariable name) else .ok ()

/-- Perform the checks of a script and report its events, up to the first fault. -/
def walk (v : View) : List Step → View × List Event × Except Error Unit
  | [] => (v, [], .ok ())
  | .emit _ :: steps => v.walk steps
  | .note event :: steps =>
    let (after, log, result) := v.walk steps
    (after, event :: log, result)
  | .check (.name name) :: steps =>
    match v.checkName name with
    | .ok () => v.walk steps
    | .error e => (v, [], .error e)
  | .check (.label label) :: steps =>
    if label.text ∈ v.claimed then (v, [], .error (.duplicateLabel label.text))
    else { v with claimed := v.claimed.insert label.text }.walk steps

/-- Lower expressions into an output of their own: without a fault, the result is their code, and
their labels are claimed. -/
def lowerAll (v : View) (nodes : List Node) : View × List Event × Except Error (List Instr) :=
  let start := { v with claimed := ∅ }
  match start.walk (nodes.flatMap Node.script) with
  | (_, log, .ok ()) =>
    ({ v with claimed := NameSet.ofList ((nodes.flatMap Node.labels).map Label.text) },
      log ++ [.lowered nodes.length (nodes.flatMap Node.code).length],
      .ok (nodes.flatMap Node.code))
  | (_, log, .error e) => (start, log, .error e)

/-- A call on a view. -/
def ask (v : View) : Query → View × Reply
  | .setOptions options => ({ v with strict := options.strict }, {})
  | .declare name => ({ v with symbols := v.symbols.insert name }, {})
  | .checkName name => (v, { answer := .checked (v.checkName name) })
  | .emit _ => (v, {})
  | .lowerNode node =>
    let (after, log, result) := v.walk node.script
    (after, { log, answer := .checked result })
  | .lower node =>
    let (after, log, result) := v.lowerAll [node]
    (after, { log, answer := .code result })
  | .lowerAll nodes =>
    let (after, log, result) := v.lowerAll nodes
    (after, { log, answer := .code result })
  | .generate node =>
    let (after, log, result) := v.lowerAll [node]
    (after, { log, answer := .lines (result.map (List.map Instr.text)) })

end View

/-- Views as objects of a session. -/
def Desk.views : Desk View where
  make options := { strict := options.strict, symbols := options.symbols, claimed := ∅ }
  ask := View.ask

/-! ## The view of a generator -/

namespace Generator

/-- The view of a generator. -/
def view (g : Generator) : View :=
  { strict := g.options.strict, symbols := g.symbols, claimed := g.claimed }

/-- A view performs a script as the generator does. -/
lemma walk_view (g : Generator) (steps : List Step) :
    g.view.walk steps
      = ((g.perform steps).generator.view, (g.perform steps).log, (g.perform steps).result) := by
  induction steps generalizing g with
  | nil => rfl
  | cons step steps ih =>
    cases step with
    | emit instr => exact ih (g.emit instr)
    | note event => simp only [View.walk, perform, ih g]
    | check c =>
      cases c with
      | name name =>
        have hname : g.view.checkName name = g.checkName name := rfl
        simp only [View.walk, perform, check, hname]
        cases g.checkName name with
        | error e => rfl
        | ok => exact ih g
      | label label =>
        by_cases hmem : label.text ∈ g.claimed
        · simp [View.walk, perform, check, claim, view, hmem]
        · have hnot : label.text ∉ g.view.claimed := hmem
          simp only [View.walk, perform, check, claim, if_neg hmem, if_neg hnot]
          exact ih { g with claimed := g.claimed.insert label.text }

/-- An output that fails leaves the generator cleared. -/
lemma lowerAll_of_error {g : Generator} {nodes : List Node} {e : Error}
    (h : (g.clear.perform (nodes.flatMap Node.script)).result = .error e) :
    g.lowerAll nodes =
      { generator := g.clear
        log := (g.clear.perform (nodes.flatMap Node.script)).log
        result := .error e } := by
  -- clearing drops what was emitted and claimed up to the fault, and nothing else has changed
  obtain ⟨hoptions, hsymbols⟩ := g.clear.perform_unchanged (nodes.flatMap Node.script)
  have hclear : (g.clear.perform (nodes.flatMap Node.script)).generator.clear = g.clear := by
    rw [clear, hoptions, hsymbols]
    rfl
  simp only [lowerAll, h, hclear]

/-- An output that succeeds leaves the generator without code, and with the labels of the
expressions claimed. -/
lemma lowerAll_of_ok {g : Generator} {nodes : List Node}
    (h : (g.clear.perform (nodes.flatMap Node.script)).result = .ok ()) :
    g.lowerAll nodes =
      { generator :=
          { g.clear with
            claimed := NameSet.ofList ((nodes.flatMap Node.labels).map Label.text) }
        log := (g.clear.perform (nodes.flatMap Node.script)).log
          ++ [.lowered nodes.length (nodes.flatMap Node.code).length]
        result := .ok (nodes.flatMap Node.code) } := by
  have hgenerator := perform_generator_of_ok h
  rw [extended, Step.checked_flatMap_script, Step.emitted_flatMap_script, passed,
    Check.texts_flatMap_checks] at hgenerator
  simp only [lowerAll, h, hgenerator]
  simp [clear, NameSet.ofList]

/-- A view lowers expressions into an output of their own as the generator does. -/
lemma lowerAll_view (g : Generator) (nodes : List Node) :
    g.view.lowerAll nodes
      = ((g.lowerAll nodes).generator.view, (g.lowerAll nodes).log, (g.lowerAll nodes).result) := by
  have hwalk : { g.view with claimed := ∅ }.walk (nodes.flatMap Node.script) = _ :=
    g.clear.walk_view (nodes.flatMap Node.script)
  cases h : (g.clear.perform (nodes.flatMap Node.script)).result with
  | error e =>
    rw [lowerAll_of_error h]
    simp only [View.lowerAll, hwalk, h]
    rfl
  | ok =>
    rw [lowerAll_of_ok h]
    simp only [View.lowerAll, hwalk, h]
    rfl

/-- A view answers a call as the generator does. -/
lemma ask_view (g : Generator) (query : Query) :
    g.view.ask query = ((g.ask query).1.view, (g.ask query).2) := by
  cases query with
  | setOptions options => rfl
  | declare name => rfl
  | checkName name => rfl
  | emit instr => rfl
  | lowerNode node => simp only [View.ask, ask, lowerNode, walk_view]
  | lower node => simp only [View.ask, ask, lower, lowerAll_view]
  | lowerAll nodes => simp only [View.ask, ask, lowerAll_view]
  | generate node => simp only [View.ask, ask, generate, lower, Outcome.map, lowerAll_view]

lemma maps_view : Desk.Maps Desk.generators Desk.views view where
  make _ := rfl
  ask := ask_view

/-! ## Outputs of their own -/

/-- The generator that has just been made, and is as strict and admits the same names. -/
def renewed (g : Generator) : Generator :=
  ofOptions { strict := g.options.strict, symbols := g.symbols }

lemma lowerAll_generator (g : Generator) (nodes : List Node) :
    (g.lowerAll nodes).generator =
      if (g.lowerAll nodes).result.isOk then
        { g.clear with claimed := NameSet.ofList ((nodes.flatMap Node.labels).map Label.text) }
      else g.clear := by
  cases h : (g.clear.perform (nodes.flatMap Node.script)).result with
  | error e =>
    rw [lowerAll_of_error h]
    rfl
  | ok =>
    rw [lowerAll_of_ok h]
    rfl

/-- What is left of a generator after a call that makes an output of its own. -/
lemma ask_output_generator {g : Generator} {query : Query} {nodes : List Node}
    (h : query.output? = some nodes) :
    (g.ask query).1 =
      if (g.ask query).2.answer.isOk then
        { g.clear with claimed := NameSet.ofList ((nodes.flatMap Node.labels).map Label.text) }
      else g.clear := by
  cases query with
  | lower node =>
    obtain rfl := Option.some.inj h
    exact g.lowerAll_generator [node]
  | lowerAll nodes =>
    obtain rfl := Option.some.inj h
    exact g.lowerAll_generator nodes
  | generate node =>
    obtain rfl := Option.some.inj h
    have hisOk : (g.ask (.generate node)).2.answer.isOk = (g.lowerAll [node]).result.isOk := by
      show ((g.lowerAll [node]).result.map (List.map Instr.text)).isOk = _
      cases (g.lowerAll [node]).result <;> rfl
    rw [hisOk]
    exact g.lowerAll_generator [node]
  | setOptions | declare | checkName | emit | lowerNode => exact absurd h (by simp [Query.output?])

/-- A call that makes an output of its own is answered as if the generator were new. -/
lemma ask_output_reply {g : Generator} {query : Query} {nodes : List Node}
    (h : query.output? = some nodes) : (g.ask query).2 = (g.renewed.ask query).2 := by
  -- the views differ in the claimed labels only, which an output of its own forgets first
  have hviews : (g.view.ask query).2 = (g.renewed.view.ask query).2 := by
    cases query with
    | lower | lowerAll | generate => rfl
    | setOptions | declare | checkName | emit | lowerNode =>
      exact absurd h (by simp [Query.output?])
  rwa [ask_view, ask_view] at hviews

/-! ## Admitted names -/

lemma mem_symbols_ask {g : Generator} {query : Query} {name : String} :
    name ∈ (g.ask query).1.symbols ↔ query = .declare name ∨ name ∈ g.symbols := by
  have hlowerAll (nodes : List Node) : (g.lowerAll nodes).generator.symbols = g.symbols := by
    rw [lowerAll_generator]
    split <;> rfl
  cases query with
  | declare other =>
    rw [Query.declare.injEq, eq_comm]
    exact NameSet.mem_insert
  | setOptions | checkName | emit => simp [ask, setOptions, emit]
  | lowerNode node => simp [ask, lowerNode, (g.perform_unchanged node.script).2]
  | lower node => simp [ask, lower, hlowerAll]
  | lowerAll nodes => simp [ask, hlowerAll]
  | generate node => simp [ask, generate, lower, Outcome.map, hlowerAll]

/-- The generator after calls made one after another. -/
def askAll (g : Generator) (queries : List Query) : Generator :=
  queries.foldl (fun g query => (g.ask query).1) g

lemma mem_symbols_askAll {g : Generator} {queries : List Query} {name : String} :
    name ∈ (g.askAll queries).symbols ↔ .declare name ∈ queries ∨ name ∈ g.symbols := by
  induction queries generalizing g with
  | nil => simp [askAll]
  | cons query queries ih =>
    have hrest := ih (g := (g.ask query).1)
    rw [mem_symbols_ask] at hrest
    rw [List.mem_cons, eq_comm (a := Query.declare name), or_assoc, or_left_comm]
    exact hrest

/-! ## The history -/

/-- **The history of a generator is visible only through its view.**  In every session the
replies of generators are those of their views, and the generators that are left have the views
that are left.  The admitted names are those of the options with which a generator was made and
those declared since.  A call that makes an output of its own is answered as if the generator
were new, and leaves no code, and as claimed labels those of its expressions if it succeeds and
none if it fails.  So generators with the same view give the same replies in every session. -/
theorem replies_determined_by_view :
    (∀ store turns,
      Desk.views.run (Option.map view ∘ store) turns
        = (Option.map view ∘ (Desk.generators.run store turns).1,
          (Desk.generators.run store turns).2)) ∧
    (∀ options queries name,
      name ∈ ((ofOptions options).askAll queries).symbols ↔
        name ∈ options.symbols ∨ .declare name ∈ queries) ∧
    (∀ (g : Generator) query nodes, query.output? = some nodes →
      (g.ask query).2 = (g.renewed.ask query).2 ∧
      (g.ask query).1.code = #[] ∧
      (g.ask query).1.claimed =
        if (g.ask query).2.answer.isOk then
          NameSet.ofList ((nodes.flatMap Node.labels).map Label.text)
        else ∅) ∧
    ∀ store store' turns, Option.map view ∘ store = Option.map view ∘ store' →
      (Desk.generators.run store turns).2 = (Desk.generators.run store' turns).2 := by
  refine ⟨maps_view.run, fun options queries name => ?_, fun g query nodes h => ?_,
    fun store store' turns h => ?_⟩
  · rw [mem_symbols_askAll, or_comm]
    rfl
  · refine ⟨ask_output_reply h, ?_, ?_⟩
    · rw [ask_output_generator h]
      split <;> rfl
    · conv_lhs => rw [ask_output_generator h]
      split <;> rfl
  · have hrun := maps_view.run store turns
    rw [h, maps_view.run store' turns] at hrun
    exact (Prod.mk.inj hrun).2.symm

/-- A generator that was made permissive and admits `x`, was then made strict with other options,
and has emitted code. -/
def usedOnce : Generator :=
  ((ofOptions { symbols := .ofList ["x"] }).setOptions
    { strict := true, symbols := .ofList ["z"] }).emit .push

/-- Lower a loop twice into one output, and then generate lines and check a name on a copy. -/
def loopTwice : List Turn :=
  [.ask 0 (.lowerNode (.loop 0 (.var "x") (.number 1))),
   .ask 0 (.lowerNode (.loop 0 (.var "x") (.number 1))),
   .copy 0 1, .ask 1 (.generate (.var "x")), .ask 1 (.checkName "z")]

theorem replies_loopTwice :
    usedOnce ≠ usedOnce.renewed ∧
      (Desk.generators.run (fun _ => some usedOnce) loopTwice).2
        = (Desk.generators.run (fun _ => some usedOnce.renewed) loopTwice).2 ∧
      (Desk.generators.run (fun _ => some usedOnce) loopTwice).2
        = [some { log := [.loop 0], answer := .checked (.ok ()) },
           some { answer := .checked (.error (.duplicateLabel (Label.loopStart 0).text)) },
           some {},
           some { log := [.lowered 1 1], answer := .lines (.ok ["mov eax, x"]) },
           some { answer := .checked (.error (.undefinedVariable "z")) }] := by
  obtain ⟨-, -, -, hsame⟩ := replies_determined_by_view
  refine ⟨by decide, hsame _ _ loopTwice rfl, rfl⟩

end Generator

end Accumulator
