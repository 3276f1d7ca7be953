/-
Reading a program off the text of its listing.

The text of a listing determines the program up to its lambdas, if all names of the program are
well-formed.  `Program.ofText` reads it in three stages:

* a well-formed name contains no line end, so the lines are found by cutting the text at the line
  ends (`Listing.split_text`);
* a data line begins with a tab, so the first line `DATA ENDS` ends the data, and what follows the
  line after it is code, up to the last two lines (`Program.dataOf_layout` and
  `Program.codeOf_layout`);
* the instructions are read off their lines (`Instr.read_text`) and the fragments off the
  instructions (`Instr.trees_flatMap_code`).
-/
import Accumulator.Proofs.Assembling
import Accumulator.Proofs.TreeReading

namespace Accumulator

/-! ## Programs with well-formed names -/

lemma Operator.readable_of_mem_tail (op : Operator) {instr : Instr} (h : instr ∈ op.tail) :
    instr.Readable := by
  revert h instr
  cases op <;> simp [tail, Instr.Readable]

namespace Node

/-- The names that an expression uses, in the order in which they are checked. -/
def names (node : Node) : List String :=
  node.checks.filterMap fun
    | .name n => some n
    | .label _ => none

lemma mem_names_iff {node : Node} {n : String} : n ∈ node.names ↔ .name n ∈ node.checks := by
  simp only [names, List.mem_filterMap]
  constructor
  · rintro ⟨c, hc, hn⟩
    cases c with
    | name m =>
      obtain rfl := Option.some.inj hn
      exact hc
    | label l => exact absurd hn (by simp)
  · intro h
    exact ⟨_, h, rfl⟩

/-- If the names of an expression are well-formed, its code is readable. -/
lemma readable_of_mem_code {node : Node} (hnames : ∀ n, .name n ∈ node.checks → IsName n)
    {instr : Instr} (h : instr ∈ node.code) : instr.Readable := by
  induction node with
  | number value =>
    obtain rfl := List.mem_singleton.mp h
    trivial
  | var name =>
    obtain rfl := List.mem_singleton.mp h
    exact hnames name (by simp [checks])
  | binary op left right ihl ihr =>
    simp only [code, List.mem_append, List.mem_singleton] at h
    rcases h with (((h | rfl) | h) | rfl) | h
    · exact ihl (fun n hn => hnames n (by simp [checks, hn])) h
    · trivial
    · exact ihr (fun n hn => hnames n (by simp [checks, hn])) h
    · trivial
    · exact op.readable_of_mem_tail h
  | bind name value ih =>
    simp only [code, List.mem_append, List.mem_singleton] at h
    rcases h with h | rfl
    · exact ih (fun n hn => hnames n (by simp [checks, hn])) h
    · exact hnames name (by simp [checks])
  | loop k condition body ihc ihb =>
    simp only [code, List.mem_append, List.mem_cons, List.not_mem_nil, or_false] at h
    rcases h with (((rfl | h) | rfl) | h) | rfl | rfl
    · exact ⟨_, rfl⟩
    · exact ihc (fun n hn => hnames n (by simp [checks, hn])) h
    · exact ⟨_, rfl⟩
    · exact ihb (fun n hn => hnames n (by simp [checks, hn])) h
    · exact ⟨_, rfl⟩
    · exact ⟨_, rfl⟩
  | branch k condition consequent alternative ihc iht ihe =>
    simp only [code, List.mem_append, List.mem_cons, List.not_mem_nil, or_false] at h
    rcases h with ((((h | rfl) | h) | rfl | rfl) | h) | rfl
    · exact ihc (fun n hn => hnames n (by simp [checks, hn])) h
    · exact ⟨_, rfl⟩
    · exact iht (fun n hn => hnames n (by simp [checks, hn])) h
    · exact ⟨_, rfl⟩
    · exact ⟨_, rfl⟩
    · exact ihe (fun n hn => hnames n (by simp [checks, hn])) h
    · exact ⟨_, rfl⟩
  | lambda first second body ih => exact ih hnames h

end Node

/-- The names of a program are well-formed. -/
structure Program.WellNamed (program : Program) : Prop where
  /-- The names of the data words are well-formed. -/
  data : ∀ name ∈ program.data, IsName name
  /-- The names that the fragments use are well-formed. -/
  fragments : ∀ node ∈ program.fragments, ∀ name ∈ node.names, IsName name

instance (program : Program) : Decidable program.WellNamed :=
  decidable_of_iff
    ((∀ name ∈ program.data, IsName name) ∧
      ∀ node ∈ program.fragments, ∀ name ∈ node.names, IsName name)
    ⟨fun ⟨hdata, hfragments⟩ => ⟨hdata, hfragments⟩,
      fun ⟨hdata, hfragments⟩ => ⟨hdata, hfragments⟩⟩

/-- The code of a program with well-formed names is readable. -/
lemma Program.WellNamed.readable {program : Program} (h : program.WellNamed) :
    ∀ instr ∈ program.fragments.flatMap Node.code, instr.Readable := by
  intro instr hinstr
  obtain ⟨node, hnode, hinstr⟩ := List.mem_flatMap.mp hinstr
  refine Node.readable_of_mem_code (fun n hn => ?_) hinstr
  exact h.fragments node hnode n (Node.mem_names_iff.mpr hn)

/-! ## Lines -/

namespace Listing

/-- The lines of a text. -/
def split (text : String) : List String :=
  ((text.toList.splitOn '\n').dropLast).map String.ofList

/-- Lines without line ends are found in the text of the listing. -/
lemma split_text {lines : List String} (h : ∀ line ∈ lines, '\n' ∉ line.toList) :
    split (mk lines).text = lines := by
  induction lines with
  | nil => rfl
  | cons line lines ih =>
    obtain ⟨hline, hlines⟩ := List.forall_mem_cons.mp h
    have htext : (mk (line :: lines)).text.toList
        = line.toList ++ '\n' :: (mk lines).text.toList := by
      rw [text_cons, String.toList_append, String.toList_append, List.append_assoc]
      rfl
    rw [split, htext, List.splitOn_append_cons_self_of_not_mem hline,
      List.dropLast_cons_of_ne_nil (List.splitOn_ne_nil _ _), List.map_cons,
      String.ofList_toList]
    exact congrArg (line :: ·) (ih hlines)

end Listing

/-! ## Segments -/

namespace Program

/-- The data word of a line. -/
def readDataLine (line : String) : String :=
  String.ofList (line.toList.tail.take (line.toList.length - 4))

/-- The lines of the data words of a listing. -/
def dataLines (lines : List String) : List String :=
  lines.tail.takeWhile (· ≠ "DATA ENDS")

/-- The data words of a listing. -/
def dataOf (lines : List String) : List String := (dataLines lines).map readDataLine

/-- The code of a listing, without the final output. -/
def codeOf (lines : List String) : List Instr :=
  ((lines.drop ((dataLines lines).length + 3)).map Instr.read).dropLast.dropLast

lemma layout_eq (data : List String) (code : List Instr) :
    layout data code = "DATA SEGMENT" :: (data.map dataLine ++
      ("DATA ENDS" :: "CODE SEGMENT" :: (code.map Instr.text ++ ["out eax", "CODE ENDS"]))) := by
  simp [layout, Instr.text]

lemma dataLines_layout (data : List String) (code : List Instr) :
    dataLines (layout data code) = data.map dataLine := by
  -- a data line begins with a tab, whatever the name is
  have hline : ∀ line ∈ data.map dataLine, line ≠ "DATA ENDS" := by
    intro line hline heq
    obtain ⟨name, -, rfl⟩ := List.mem_map.mp hline
    have htab : (dataLine name).toList.head? = some '\t' := by simp [dataLine]
    rw [heq] at htab
    exact absurd htab (by decide)
  rw [dataLines, layout_eq, List.tail_cons,
    List.takeWhile_append_of_pos (by simpa using hline), List.takeWhile_cons_of_neg (by simp),
    List.append_nil]

lemma readDataLine_dataLine (name : String) : readDataLine (dataLine name) = name := by
  simp [readDataLine, dataLine]

/-- The data words are read off the listing. -/
lemma dataOf_layout (data : List String) (code : List Instr) :
    dataOf (layout data code) = data := by
  rw [dataOf, dataLines_layout, List.map_map]
  exact (List.map_congr_left fun name _ => readDataLine_dataLine name).trans (List.map_id data)

/-- Readable code is read off the listing. -/
lemma codeOf_layout (data : List String) {code : List Instr}
    (h : ∀ instr ∈ code, instr.Readable) : codeOf (layout data code) = code := by
  have hcode : (code.map Instr.text).map Instr.read = code := by
    rw [List.map_map]
    exact (List.map_congr_left fun instr hinstr => Instr.read_text (h instr hinstr)).trans
      (List.map_id code)
  have hdrop : (layout data code).drop ((data.map dataLine).length + 3)
      = code.map Instr.text ++ ["out eax", "CODE ENDS"] := by
    rw [layout_eq, List.drop_succ_cons, List.drop_length_add_append]
    rfl
  rw [codeOf, dataLines_layout, hdrop, List.map_append, hcode]
  simp

/-- A listing of readable code has no line end in its lines. -/
lemma newline_not_mem_layout {data : List String} {code : List Instr}
    (hdata : ∀ name ∈ data, IsName name) (hcode : ∀ instr ∈ code, instr.Readable) :
    ∀ line ∈ layout data code, '\n' ∉ line.toList := by
  intro line hline
  simp only [layout_eq, List.mem_cons, List.mem_append, List.mem_map, List.not_mem_nil,
    or_false] at hline
  rcases hline with rfl | ⟨name, hname, rfl⟩ | rfl | rfl | ⟨instr, hinstr, rfl⟩ | rfl | rfl
  · decide
  · have hchars : '\n' ∉ name.toList := not_mem_of_all (hdata name hname).chars (by decide)
    simpa [dataLine] using hchars
  · decide
  · decide
  · exact Instr.newline_not_mem_text (hcode instr hinstr)
  · decide
  · decide

/-! ## Programs -/

/-- The program with a given listing. -/
def ofText (text : String) : Program where
  data := dataOf (Listing.split text)
  fragments := Instr.trees (codeOf (Listing.split text))

/-- A program is read off the text of its listing, without its lambdas. -/
lemma ofText_text {program : Program} {options : Options} {listing : Listing}
    (hnames : program.WellNamed) (h : program.assemble options = .ok listing) :
    ofText listing.text
      = { data := program.data, fragments := program.fragments.map Node.unwrap } := by
  obtain ⟨-, hlines⟩ := assemble_eq_ok_iff.mp h
  have hreadable := hnames.readable
  have hsplit : Listing.split listing.text = listing.lines := by
    refine Listing.split_text ?_
    rw [hlines]
    exact newline_not_mem_layout hnames.data hreadable
  rw [ofText, hsplit, hlines, dataOf_layout, codeOf_layout _ hreadable,
    Instr.trees_flatMap_code]

/-- **Listings are unambiguous.**  Two programs with well-formed names give listings of the same
text if and only if they have the same data words, and the same fragments after every lambda is
replaced by its body. -/
theorem text_eq_iff {p q : Program} (hp : p.WellNamed) (hq : q.WellNamed)
    {options options' : Options} {listing listing' : Listing}
    (h : p.assemble options = .ok listing) (h' : q.assemble options' = .ok listing') :
    listing.text = listing'.text ↔
      p.data = q.data ∧ p.fragments.map Node.unwrap = q.fragments.map Node.unwrap := by
  constructor
  · intro heq
    have hread := ofText_text hp h
    rw [heq, ofText_text hq h'] at hread
    obtain ⟨hdata, hfragments⟩ := Program.mk.inj hread
    exact ⟨hdata.symm, hfragments.symm⟩
  · rintro ⟨hdata, hfragments⟩
    have hlines : listing.lines = listing'.lines := by
      rw [(assemble_eq_ok_iff.mp h).2, (assemble_eq_ok_iff.mp h').2, hdata,
        Node.flatMap_code_inj.mpr hfragments]
    rw [Listing.text, Listing.pieces, hlines]
    rfl

/-- A loop that counts a data word down, with a remainder as its condition. -/
def countdown (k : UInt64) : Program where
  data := ["x"]
  fragments :=
    [.loop k (.binary .mod (.var "x") (.number 7))
      (.bind "x" (.binary .sub (.var "x") (.number (-1))))]

/-- The same loop with lambdas around it and inside. -/
def wrappedCountdown (k : UInt64) : Program where
  data := ["x"]
  fragments :=
    [.lambda "a" "b" (.loop k (.binary .mod (.var "x") (.number 7))
      (.bind "x" (.lambda "c" "c" (.binary .sub (.var "x") (.number (-1))))))]

theorem text_countdown :
    ∃ first second third, (countdown 0).assemble {} = .ok first ∧
      (wrappedCountdown 0).assemble { strict := true } = .ok second ∧
      (countdown 1).assemble {} = .ok third ∧
      first.text = second.text ∧ first.text ≠ third.text := by
  have hfirst : (countdown 0).assemble {}
      = .ok ⟨layout ["x"] ((countdown 0).fragments.flatMap Node.code)⟩ := rfl
  have hsecond : (wrappedCountdown 0).assemble { strict := true }
      = .ok ⟨layout ["x"] ((wrappedCountdown 0).fragments.flatMap Node.code)⟩ := rfl
  have hthird : (countdown 1).assemble {}
      = .ok ⟨layout ["x"] ((countdown 1).fragments.flatMap Node.code)⟩ := rfl
  refine ⟨_, _, _, hfirst, hsecond, hthird, ?_, fun heq => ?_⟩
  · exact (text_eq_iff (by decide) (by decide) hfirst hsecond).mpr ⟨rfl, rfl⟩
  · obtain ⟨-, hfragments⟩ := (text_eq_iff (by decide) (by decide) hfirst hthird).mp heq
    exact absurd hfragments (by decide)

end Program

end Accumulator
