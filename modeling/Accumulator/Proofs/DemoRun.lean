/-
Runs of the program on demos.

A run selects demos by their names, builds them one after another from one new allocator, and
writes their listings with a separator line between two of them.  It can fail in two ways: a name
may be unknown, and then nothing is written; or names are checked and a demo reads its input
without being allowed to, and then the listings before it are written, each with a separator after
it.

* `Invocation.select_of_selects` and `Invocation.select_of_unknown` say what names select;
* `Demo.exists_assemble_build` and `Demo.assemble_build_of_lacks` say which demos can be assembled;
* `Printout.shows_of_ok` and `Printout.shows_of_error` give the text of a printout;
* `Invocation.run_of_selects` reduces a run to its printout.
-/
import Accumulator.Execution
import Accumulator.Proofs.DemoSeries

namespace Accumulator

/-! ## Demos by name -/

namespace Demo

/-- There is a demo of this name. -/
def Known (name : String) : Prop := ∃ demo ∈ all, demo.name = name
deriving Decidable

lemma find?_eq_some_iff {name : String} {demo : Demo} :
    find? name = some demo ↔ demo ∈ all ∧ demo.name = name := by
  constructor
  · intro h
    exact ⟨List.mem_of_find?_eq_some h, by simpa using List.find?_some h⟩
  · rintro ⟨h, rfl⟩
    simp only [all, List.mem_cons, List.not_mem_nil, or_false] at h
    rcases h with rfl | rfl | rfl <;> rfl

lemma find?_eq_none_iff {name : String} : find? name = none ↔ ¬ Known name := by
  simp [find?, Known]

end Demo

namespace Invocation

lemma select_of_ne_nil {names : List String} (h : names ≠ []) :
    select names = names.mapM demoNamed := by
  cases names with
  | nil => exact absurd rfl h
  | cons name names => rfl

lemma mapM_demoNamed {demos : List Demo} (hdemos : ∀ demo ∈ demos, demo ∈ Demo.all) :
    (demos.map Demo.name).mapM demoNamed = .ok demos := by
  induction demos with
  | nil => rfl
  | cons demo demos ih =>
    obtain ⟨hdemo, hdemos⟩ := List.forall_mem_cons.mp hdemos
    have hnamed : demoNamed demo.name = .ok demo := by
      rw [demoNamed, Demo.find?_eq_some_iff.mpr ⟨hdemo, rfl⟩]
    rw [List.map_cons, List.mapM_cons, hnamed, ih hdemos]
    rfl

/-- The demos that are selected by names: those of the names, in order, and all demos if there are
no names. -/
def Selects (names : List String) (demos : List Demo) : Prop :=
  if names = [] then demos = Demo.all
  else demos.map Demo.name = names ∧ ∀ demo ∈ demos, demo ∈ Demo.all

lemma Selects.mem_all {names : List String} {demos : List Demo} (h : Selects names demos) :
    ∀ demo ∈ demos, demo ∈ Demo.all := by
  unfold Selects at h
  split at h
  · exact fun demo hdemo => h ▸ hdemo
  · exact h.2

lemma Selects.ne_nil {names : List String} {demos : List Demo} (h : Selects names demos) :
    demos ≠ [] := by
  rintro rfl
  unfold Selects at h
  split at h
  next => simp [Demo.all] at h
  next hnil => exact hnil h.1.symm

lemma select_of_selects {names : List String} {demos : List Demo} (h : Selects names demos) :
    select names = .ok demos := by
  unfold Selects at h
  split at h
  next hnil => rw [hnil, h, select]
  next hnil => rw [select_of_ne_nil hnil, ← h.1, mapM_demoNamed h.2]

/-- Known names are the names of demos, in order. -/
lemma exists_map_name_eq {names : List String} (h : ∀ name ∈ names, Demo.Known name) :
    ∃ demos : List Demo, demos.map Demo.name = names ∧ ∀ demo ∈ demos, demo ∈ Demo.all := by
  induction names with
  | nil => exact ⟨[], rfl, fun _ => False.elim ∘ List.not_mem_nil⟩
  | cons name names ih =>
    obtain ⟨⟨demo, hdemo, rfl⟩, hnames⟩ := List.forall_mem_cons.mp h
    obtain ⟨demos, rfl, hdemos⟩ := ih hnames
    exact ⟨demo :: demos, rfl, List.forall_mem_cons.mpr ⟨hdemo, hdemos⟩⟩

lemma exists_selects {names : List String} (h : ∀ name ∈ names, Demo.Known name) :
    ∃ demos, Selects names demos := by
  by_cases hnil : names = []
  · exact ⟨Demo.all, by rw [Selects, if_pos hnil]⟩
  · obtain ⟨demos, hdemos⟩ := exists_map_name_eq h
    exact ⟨demos, by rw [Selects, if_neg hnil]; exact hdemos⟩

/-- The first unknown name is complained about. -/
lemma select_of_unknown {earlier : List String} {name : String}
    (hearlier : ∀ n ∈ earlier, Demo.Known n) (hname : ¬ Demo.Known name) (later : List String) :
    select (earlier ++ name :: later)
      = .error ("unknown demo '" ++ name ++ "' (try --list)") := by
  obtain ⟨demos, rfl, hdemos⟩ := exists_map_name_eq hearlier
  have hnamed : demoNamed name = .error ("unknown demo '" ++ name ++ "' (try --list)") := by
    rw [demoNamed, Demo.find?_eq_none_iff.mpr hname]
  rw [select_of_ne_nil (by simp), List.mapM_append, mapM_demoNamed hdemos, List.mapM_cons, hnamed]
  rfl

end Invocation

/-! ## Demos that can be assembled -/

/-- In strict mode, a program that first stores a name in a data word fails at this name if it is
not admitted. -/
lemma Program.assemble_of_undefined {program : Program} {options : Options} {target name : String}
    {rest : List Node} (hfragments : program.fragments = .bind target (.var name) :: rest)
    (htarget : target ∈ program.data) (hname : name ∉ program.data)
    (hstrict : options.strict = true) (hsymbols : name ∉ options.symbols) :
    program.assemble options = .error (.undefinedVariable name) := by
  have hadmitted : target ∈ (program.generator options).symbols :=
    mem_symbols_generator.mpr (.inl htarget)
  have hmissing : name ∉ (program.generator options).symbols :=
    mt mem_symbols_generator.mp (not_or.mpr ⟨hname, hsymbols⟩)
  have hchecks : program.fragments.flatMap Node.checks
      = .name target :: .name name :: rest.flatMap Node.checks := by
    rw [hfragments]
    rfl
  have hpasses : ¬ (Check.name target).Fails (program.generator options) [] :=
    fun h => h.2 hadmitted
  refine assemble_eq_error_iff.mpr (Generator.lowerAll_eq_error_iff.mpr ⟨.name name, ?_, rfl⟩)
  rw [hchecks, Check.firstFailing?_cons_of_not_fails hpasses]
  refine Check.firstFailing?_cons_of_fails ⟨?_, hmissing⟩
  rw [options_generator]
  exact hstrict

namespace Demo

/-- A demo lacks its input: it reads the input, names are checked, and the input is not allowed. -/
def Lacks (options : Options) (demo : Demo) : Prop :=
  options.strict = true ∧ "input" ∉ options.symbols ∧ demo.isGcd = true

/-- A demo uses its data words and, if it computes a greatest common divisor, the input. -/
lemma mem_names_build {demo : Demo} (h : demo ∈ all) {labels : Allocator} {node : Node}
    (hnode : node ∈ (demo.build labels).1.fragments) {name : String} (hname : name ∈ node.names) :
    name ∈ (demo.build labels).1.data ∨ demo.isGcd = true ∧ name = "input" := by
  have hstart : ∀ demo ∈ all, ∀ names ∈ (demo.build .start).1.fragments.map Node.names,
      ∀ name ∈ names, name ∈ (demo.build .start).1.data ∨ demo.isGcd = true ∧ name = "input" := by
    decide
  obtain ⟨hdata, hnames⟩ := names_build h labels
  rw [hdata]
  refine hstart demo h node.names ?_ name hname
  rw [← hnames]
  exact List.mem_map_of_mem hnode

lemma exists_assemble_build {demo : Demo} (h : demo ∈ all) {options : Options}
    (hlacks : ¬ demo.Lacks options) (labels : Allocator) :
    ∃ listing, (demo.build labels).1.assemble options = .ok listing := by
  have hnodup (family : LabelFamily) :
      (indicesOf family (demo.build labels).1.fragments).Nodup := by
    rw [(build_draws h labels family).1]
    cases demo.draws family <;> simp
  refine Program.exists_assemble_eq_ok_iff.mpr
    ⟨fun node hnode name hname hstrict => ?_, hnodup .loopStart, hnodup .branchElse⟩
  rw [Program.options_generator] at hstrict
  rw [Program.mem_symbols_generator]
  rcases mem_names_build h hnode (Node.mem_names_iff.mpr hname) with hdata | ⟨hgcd, rfl⟩
  · exact .inl hdata
  · refine .inr ?_
    by_contra hsymbols
    exact hlacks ⟨hstrict, hsymbols, hgcd⟩

lemma assemble_build_of_lacks {demo : Demo} (h : demo ∈ all) {options : Options}
    (hlacks : demo.Lacks options) (labels : Allocator) :
    (demo.build labels).1.assemble options = .error (.undefinedVariable "input") := by
  obtain ⟨hstrict, hsymbols, hgcd⟩ := hlacks
  have hfirst : ∃ target rest,
      (demo.build labels).1.fragments = .bind target (.var "input") :: rest ∧
        target ∈ (demo.build .start).1.data := by
    simp only [all, List.mem_cons, List.not_mem_nil, or_false] at h
    rcases h with rfl | rfl | rfl
    · exact absurd hgcd (by decide)
    · exact ⟨"a", _, rfl, by decide⟩
    · exact ⟨"x", _, rfl, by decide⟩
  have hinput : ∀ demo ∈ all, "input" ∉ (demo.build .start).1.data := by decide
  obtain ⟨target, rest, hfragments, htarget⟩ := hfirst
  have hdata := (names_build h labels).1
  exact Program.assemble_of_undefined hfragments (hdata ▸ htarget) (hdata ▸ hinput demo h)
    hstrict hsymbols

/-- The listings of demos that are built one after another and assembled with the same options. -/
def Assembles (options : Options) (labels : Allocator) (demos : List Demo)
    (listings : List Listing) : Prop :=
  List.Forall₂ (fun program listing => program.assemble options = .ok listing)
    (series labels demos) listings

/-- Demos none of which lacks its input can be assembled. -/
lemma exists_assembles {options : Options} {demos : List Demo}
    (hdemos : ∀ demo ∈ demos, demo ∈ all) (hlacks : ∀ demo ∈ demos, ¬ demo.Lacks options)
    (labels : Allocator) : ∃ listings, Assembles options labels demos listings := by
  induction demos generalizing labels with
  | nil => exact ⟨[], .nil⟩
  | cons demo demos ih =>
    obtain ⟨hdemo, hdemos⟩ := List.forall_mem_cons.mp hdemos
    obtain ⟨hfirst, hlacks⟩ := List.forall_mem_cons.mp hlacks
    obtain ⟨listing, hlisting⟩ := exists_assemble_build hdemo hfirst labels
    obtain ⟨listings, hlistings⟩ := ih hdemos hlacks (demo.build labels).2
    exact ⟨listing :: listings, .cons hlisting hlistings⟩

end Demo

/-! ## Printouts -/

namespace Printout

/-- A printout has a text, and ends early with a fault or not. -/
structure Shows (printout : Printout) (text : String) (fault : Option String) : Prop where
  text_eq : printout.text = text
  fault_eq : printout.fault = fault

variable {options : Options} {demo : Demo} {labels : Allocator}

/-- After a demo that can be assembled, the printout goes on with a separator. -/
lemma shows_cons_of_ok {listing : Listing}
    (h : (demo.build labels).1.assemble options = .ok listing) (lead : String)
    {demos : List Demo} {text : String} {fault : Option String}
    (hrest : (ofDemos options none separator (demo.build labels).2 demos).Shows text fault) :
    (ofDemos options none lead labels (demo :: demos)).Shows (lead ++ listing.text ++ text)
      fault := by
  obtain ⟨rfl, rfl⟩ := hrest
  rw [Program.assemble] at h
  constructor <;> simp only [ofDemos, h, Printout.text, List.map_cons, List.foldr_cons]

/-- A demo that cannot be assembled ends the printout, after the text before its listing. -/
lemma shows_cons_of_error {e : Error}
    (h : (demo.build labels).1.assemble options = .error e) (lead : String)
    (demos : List Demo) :
    (ofDemos options none lead labels (demo :: demos)).Shows lead
      (some ("failed to generate demo '" ++ demo.name ++ "': " ++ e.message)) := by
  rw [Program.assemble] at h
  constructor <;> simp [ofDemos, h, Printout.text]

/-- If all demos can be assembled, their listings are written with a separator between any two. -/
lemma shows_of_ok {demos : List Demo} {listings : List Listing}
    (h : Demo.Assembles options labels (demo :: demos) listings) (lead : String) :
    (ofDemos options none lead labels (demo :: demos)).Shows
      (lead ++ separator.intercalate (listings.map Listing.text)) none := by
  induction demos generalizing demo labels listings lead with
  | nil =>
    obtain _ | ⟨hlisting, hnone⟩ := h
    cases hnone
    have hrest : (ofDemos options none separator (demo.build labels).2 []).Shows "" none :=
      ⟨rfl, rfl⟩
    simpa using shows_cons_of_ok hlisting lead hrest
  | cons next demos ih =>
    obtain _ | ⟨hlisting, hlistings⟩ := h
    have hrest := shows_cons_of_ok hlisting lead (ih hlistings separator)
    obtain _ | ⟨hnext, hlistings⟩ := hlistings
    simpa [String.intercalate_cons_cons, String.append_assoc] using hrest

/-- If a demo cannot be assembled, the listings of the demos before it are written, each with a
separator after it. -/
lemma shows_of_error {before : List Demo} {listings : List Listing}
    (hbefore : Demo.Assembles options labels before listings) {e : Error}
    (h : ∀ labels, (demo.build labels).1.assemble options = .error e) (lead : String)
    (after : List Demo) :
    (ofDemos options none lead labels (before ++ demo :: after)).Shows
      (lead ++ String.join (listings.map fun listing => listing.text ++ separator))
      (some ("failed to generate demo '" ++ demo.name ++ "': " ++ e.message)) := by
  induction before generalizing labels listings lead with
  | nil =>
    cases hbefore
    simpa using shows_cons_of_error (h labels) lead after
  | cons first before ih =>
    obtain _ | ⟨hlisting, hlistings⟩ := hbefore
    have hrest := shows_cons_of_ok hlisting lead (ih hlistings separator)
    simpa [String.join_cons, String.append_assoc] using hrest

end Printout

/-! ## Runs -/

/-- A run ends with a fault or without one: the exit code says which, and apart from events, the
complaint about the fault is all that appears on standard error, and comes last. -/
structure Execution.Ends (execution : Execution) (fault : Option String) : Prop where
  /-- The exit code is 1 for a fault. -/
  exitCode : execution.exitCode = if fault.isSome then 1 else 0
  /-- The messages are events, and the complaint about a fault. -/
  messages : ∃ events : List Event,
    execution.messages = events.map .event ++ (fault.map Invocation.complaint).toList

/-- A run puts a text into the file of the given path, or on standard output if there is no path,
and puts nothing else anywhere. -/
def Execution.Puts (execution : Execution) (output : Option String) (text : String) : Prop :=
  match output with
  | none => execution.stdout = text ∧ execution.file = none
  | some path => execution.stdout = "" ∧ execution.file = some (path, text)

namespace Invocation

lemma options_strict (invocation : Invocation) : invocation.options.strict = invocation.strict :=
  rfl

lemma mem_options_symbols {invocation : Invocation} {name : String} :
    name ∈ invocation.options.symbols ↔ name ∈ invocation.symbols := by
  simp [options, Options.withSymbols]

/-- What a run reports are events, and the complaint about a fault at the end. -/
lemma exists_events (invocation : Invocation) (printout : Printout) (count : Nat) :
    ∃ events : List Event, printout.events ++ invocation.closing printout count
      = events.map .event ++ (printout.fault.map complaint).toList := by
  have hevents : printout.events = (printout.sections.flatMap Section.log).map .event :=
    List.map_flatMap.symm
  unfold closing
  cases printout.fault with
  | some text => exact ⟨_, by rw [hevents]; rfl⟩
  | none =>
    cases invocation.output with
    | none => exact ⟨_, by rw [hevents]; rfl⟩
    | some path =>
      refine ⟨printout.sections.flatMap Section.log ++ [.wrote count path], ?_⟩
      rw [hevents, List.map_append, Option.map_none, Option.toList_none, List.append_nil]
      rfl

/-- A run delivers the printout of the selected demos. -/
lemma run_of_selects (create : String → Except String Target) (invocation : Invocation)
    (hlist : invocation.list = false)
    (hcreate : ∀ path, invocation.output = some path → create path = .ok .file)
    {demos : List Demo} (hdemos : Selects invocation.demos demos) {text : String}
    {fault : Option String}
    (hshows : (Printout.ofDemos invocation.options none "" .start demos).Shows text fault) :
    (invocation.run create).Ends fault ∧ (invocation.run create).Puts invocation.output text := by
  obtain ⟨rfl, rfl⟩ := hshows
  have hevents := invocation.exists_events
    (Printout.ofDemos invocation.options none "" .start demos) demos.length
  simp only [run, hlist, Bool.false_eq_true, if_false, select_of_selects hdemos, target]
  cases houtput : invocation.output with
  | none => exact ⟨⟨rfl, hevents⟩, rfl, rfl⟩
  | some path =>
    simp only [hcreate path houtput]
    refine ⟨⟨rfl, hevents⟩, rfl, ?_⟩
    simp [deliver, houtput, Target.fault?]

/-- What a run on demos does. -/
structure Outcome (create : String → Except String Target) (invocation : Invocation) : Prop where
  /-- The first unknown name is complained about.  Nothing is written, and no file is created: the
  output path is not even looked at. -/
  unknown : ∀ earlier name later, invocation.demos = earlier ++ name :: later →
    (∀ n ∈ earlier, Demo.Known n) → ¬ Demo.Known name →
      (invocation.run create).Ends (some ("unknown demo '" ++ name ++ "' (try --list)")) ∧
      (invocation.run create).stdout = "" ∧ (invocation.run create).file = none ∧
      invocation.destination? = none ∧ ∀ other, invocation.run other = invocation.run create
  /-- Known names select demos. -/
  known : (∀ name ∈ invocation.demos, Demo.Known name) → ∃ demos, Selects invocation.demos demos
  /-- Unless a demo lacks its input, the listings are written with a separator between any two. -/
  success : ∀ demos, Selects invocation.demos demos →
    invocation.strict = false ∨ "input" ∈ invocation.symbols ∨
        (∀ demo ∈ demos, demo.isGcd = false) →
      ∃ listings, Demo.Assembles invocation.options .start demos listings ∧
        (invocation.run create).Ends none ∧
        (invocation.run create).Puts invocation.output
          (Printout.separator.intercalate (listings.map Listing.text))
  /-- The first demo that lacks its input is complained about, and the listings before it are
  written, each with a separator after it. -/
  lacking : ∀ before demo after, Selects invocation.demos (before ++ demo :: after) →
    invocation.strict = true → "input" ∉ invocation.symbols →
    (∀ other ∈ before, other.isGcd = false) → demo.isGcd = true →
      ∃ listings, Demo.Assembles invocation.options .start before listings ∧
        (invocation.run create).Ends (some ("failed to generate demo '" ++ demo.name
          ++ "': Undefined variable: 'input'")) ∧
        (invocation.run create).Puts invocation.output
          (String.join (listings.map fun listing => listing.text ++ Printout.separator))
  /-- A file gets the text that standard output gets without a file, and the run ends in the same
  way. -/
  same_text : ∀ demos path, Selects invocation.demos demos → create path = .ok .file →
    ∃ text fault,
      (run create { invocation with output := none }).Ends fault ∧
      (run create { invocation with output := none }).Puts none text ∧
      (run create { invocation with output := some path }).Ends fault ∧
      (run create { invocation with output := some path }).Puts (some path) text

/-- **What a run on demos does.**  If a name is unknown, the run fails at the first such name before
anything is written or created.  Otherwise it writes the listings of the selected demos, built one
after another from a new allocator, with a separator between any two; and if names are checked and
the input is not allowed, it fails at the first demo that reads the input, after the listings before
it, each with a separator after it.  The text goes into the file if there is one, and is the same
that would go to standard output. -/
theorem outcome_of_run (create : String → Except String Target) (invocation : Invocation)
    (hlist : invocation.list = false)
    (hcreate : ∀ path, invocation.output = some path → create path = .ok .file) :
    Outcome create invocation := by
  constructor
  case unknown =>
    intro earlier name later hdemos hearlier hname
    have hselect := select_of_unknown hearlier hname later
    rw [← hdemos] at hselect
    have hrun (other : String → Except String Target) :
        invocation.run other = failure ("unknown demo '" ++ name ++ "' (try --list)") := by
      simp only [run, hlist, Bool.false_eq_true, if_false, hselect]
    have hdestination : invocation.destination? = none := by
      simp only [destination?, hlist, hselect]
    rw [hrun create]
    exact ⟨⟨rfl, [], rfl⟩, rfl, rfl, hdestination, hrun⟩
  case known => exact exists_selects
  case success =>
    intro demos hdemos hadmits
    have hlacks : ∀ demo ∈ demos, ¬ demo.Lacks invocation.options := by
      rintro demo hdemo ⟨hstrict, hsymbols, hgcd⟩
      rw [mem_options_symbols] at hsymbols
      rcases hadmits with h | h | h
      · exact absurd hstrict (by rw [options_strict, h]; decide)
      · exact hsymbols h
      · exact absurd hgcd (by rw [h demo hdemo]; decide)
    obtain ⟨listings, hlistings⟩ := Demo.exists_assembles hdemos.mem_all hlacks Allocator.start
    obtain ⟨first, rest, rfl⟩ := List.exists_cons_of_ne_nil hdemos.ne_nil
    have hshows := Printout.shows_of_ok hlistings ""
    rw [String.empty_append] at hshows
    exact ⟨listings, hlistings, run_of_selects create invocation hlist hcreate hdemos hshows⟩
  case lacking =>
    intro before demo after hdemos hstrict hsymbols hbefore hgcd
    obtain ⟨hmem, hmem'⟩ := List.forall_mem_append.mp hdemos.mem_all
    have hlacks : demo.Lacks invocation.options :=
      ⟨hstrict, mt mem_options_symbols.mp hsymbols, hgcd⟩
    have herror := Demo.assemble_build_of_lacks (hmem' demo List.mem_cons_self) hlacks
    have hadmits : ∀ other ∈ before, ¬ other.Lacks invocation.options := by
      rintro other hother ⟨-, -, hother_gcd⟩
      exact absurd hother_gcd (by rw [hbefore other hother]; decide)
    obtain ⟨listings, hlistings⟩ := Demo.exists_assembles hmem hadmits Allocator.start
    have hmessage : "': " ++ (Error.undefinedVariable "input").message
        = "': Undefined variable: 'input'" := rfl
    have hshows := Printout.shows_of_error hlistings herror "" after
    rw [String.empty_append, String.append_assoc, hmessage] at hshows
    exact ⟨listings, hlistings, run_of_selects create invocation hlist hcreate hdemos hshows⟩
  case same_text =>
    intro demos path hdemos hpath
    obtain ⟨hends, hputs⟩ := run_of_selects create { invocation with output := none } hlist
      (by simp) hdemos ⟨rfl, rfl⟩
    obtain ⟨hends', hputs'⟩ := run_of_selects create { invocation with output := some path } hlist
      (by simp [hpath]) hdemos ⟨rfl, rfl⟩
    exact ⟨_, _, hends, hputs, hends', hputs'⟩

/-- A strict run with a file. -/
def strictRun (demos symbols : List String) : Invocation :=
  { demos, strict := true, symbols, output := some "out.asm" }

theorem outcome_strictRun :
    (∃ listing, (Demo.price .start).1.assemble { strict := true } = .ok listing ∧
      ((strictRun ["price", "gcd-loop", "price"] []).run fun _ => .ok .file).Ends
        (some "failed to generate demo 'gcd-loop': Undefined variable: 'input'") ∧
      ((strictRun ["price", "gcd-loop", "price"] []).run fun _ => .ok .file).Puts (some "out.asm")
        (listing.text ++ "--------------------\n")) ∧
    (∃ listings : List Listing, listings.length = 3 ∧
      ((strictRun ["price", "gcd-loop", "price"] ["input"]).run fun _ => .ok .file).Ends none ∧
      ((strictRun ["price", "gcd-loop", "price"] ["input"]).run fun _ => .ok .file).Puts
        (some "out.asm") (Printout.separator.intercalate (listings.map Listing.text))) ∧
    ((strictRun ["price", "gcd", "lcm"] []).run fun _ => .ok .file).Ends
      (some "unknown demo 'gcd' (try --list)") := by
  have houtcome (demos symbols : List String) :
      Outcome (fun _ => .ok .file) (strictRun demos symbols) :=
    outcome_of_run _ _ rfl fun _ _ => rfl
  have hselects : Selects ["price", "gcd-loop", "price"]
      ([Demo.all[0]] ++ Demo.all[1] :: [Demo.all[0]]) := by
    rw [Selects, if_neg (by decide)]
    exact ⟨rfl, by simp [Demo.all]⟩
  refine ⟨?_, ?_, ?_⟩
  · obtain ⟨listings, hlistings, hends, hputs⟩ :=
      (houtcome _ []).lacking _ _ _ hselects rfl (by decide) (by decide) (by decide)
    obtain _ | ⟨hlisting, hnone⟩ := hlistings
    cases hnone
    refine ⟨_, hlisting, hends, ?_⟩
    simpa [strictRun, Printout.separator] using hputs
  · obtain ⟨listings, hlistings, hends, hputs⟩ :=
      (houtcome _ ["input"]).success _ hselects (.inr (.inl (by decide)))
    exact ⟨listings, hlistings.length_eq.symm, hends, hputs⟩
  · exact ((houtcome _ []).unknown ["price"] "gcd" ["lcm"] rfl (by decide) (by decide)).1

end Invocation

end Accumulator
