import GuardedRtl.Proofs.CircuitText

/-! The lines of a printed circuit: one for the circuit, then for each module one for the module, one
for each port and one for each statement, as it is printed by itself after its indentation. No format,
however it is written, adds a line. A circuit without modules is the exception: the newline after its
header is still there, so its text ends with one. Main statement: `Circuit.print_layout`. -/

namespace GuardedRtl.Rtl

/-- A text cut at its newlines. -/
def linesOf (text : String) : List String := (List.splitOn '\n' text.toList).map String.ofList

theorem linesOf_of_onOneLine {line : String} (h : OnOneLine line) : linesOf line = [line] := by
  rw [linesOf, List.splitOn_eq_singleton h, List.map_singleton, String.ofList_toList]

theorem linesOf_append_newline {line : String} (h : OnOneLine line) (rest : String) :
    linesOf (line ++ "\n" ++ rest) = line :: linesOf rest := by
  have htext : (line ++ "\n" ++ rest).toList = line.toList ++ '\n' :: rest.toList := by simp
  rw [linesOf, htext, List.splitOn_append_cons_self_of_not_mem h, List.map_cons,
    String.ofList_toList, linesOf]

theorem linesOf_joinLines {lines : List String} (hne : lines ≠ []) (h : ∀ x ∈ lines, OnOneLine x) :
    linesOf (joinLines lines) = lines := by
  fun_induction joinLines lines with
  | case1 => exact absurd rfl hne
  | case2 line => exact linesOf_of_onOneLine (h line (List.mem_singleton_self line))
  | case3 line rest hrest ih =>
    obtain ⟨hline, hlines⟩ := List.forall_mem_cons.mp h
    rw [linesOf_append_newline hline, ih (by simpa using hrest) hlines]

/-- A text that ends with a newline has an empty last line. -/
theorem not_endsWith_newline {text : String} (h : "" ∉ linesOf text) :
    text.toList.getLast? ≠ some '\n' := by
  intro hlast
  obtain ⟨init, hinit⟩ := List.getLast?_eq_some_iff.mp hlast
  apply h
  rw [linesOf, hinit, List.splitOn_append_cons_self]
  simp

theorem Node.namesOnOneLine {n : Node} (h : ∀ x ∈ n.names, OnOneLine x) : NamesOnOneLine n.trees := by
  intro node hnode x hx
  exact h x (List.mem_filterMap.mpr ⟨node, hnode, hx⟩)

theorem Circuit.linesOf_text {c : Circuit} (h : NamesOnOneLine [c.tree]) :
    linesOf c.text = ("circuit " ++ c.name ++ " :") ::
      if c.modules = [] then [""] else c.modules.flatMap Module.lines := by
  have htext : c.text = "circuit " ++ c.name ++ " :" ++ "\n" ++
      joinLines (c.modules.flatMap Module.lines) := by
    rw [c.text_eq]
    simp [String.append_assoc]
  rw [htext, linesOf_append_newline (Circuit.onOneLine_header h)]
  split_ifs with hmodules
  · simp [hmodules, joinLines, linesOf]
  · have hne : c.modules.flatMap Module.lines ≠ [] := by
      obtain ⟨m, ms, hms⟩ := List.exists_cons_of_ne_nil hmodules
      simp [hms, Module.lines_eq]
    rw [linesOf_joinLines hne fun x hx => (Circuit.onOneLine_lines h x hx).1]

/-- What stands in an accepted module is printed by itself as it is in the module. -/
theorem Module.print_content {m : Module} (h : AllAccepted [m.tree]) :
    (∀ p ∈ m.ports, (Node.port p).print = .ok p.text) ∧
      ∀ s ∈ m.statements, (Node.stmt s).print = .ok s.text := by
  obtain ⟨hports, hstatements⟩ := Module.parts_accepted h
  exact ⟨fun p hp => Node.print_of_check rfl (hports p hp),
    fun s hs => Node.print_of_check (hstatements s hs).1 (hstatements s hs).2⟩

/-- The text of a circuit whose names are on one line each, cut at its newlines, is the header of the
circuit and for each module in turn its header, its ports and its statements. No line is empty and the
text does not end with a newline, unless the circuit has no modules: then the text is the header and a
newline. -/
theorem Circuit.print_layout (c : Circuit) (text : String) (hprint : c.print = .ok text)
    (hnames : ∀ x ∈ (Node.circuit c).names, OnOneLine x) :
    (c.modules ≠ [] →
      linesOf text = ("circuit " ++ c.name ++ " :") :: c.modules.flatMap (fun m =>
        ("  module " ++ m.name ++ " :") ::
          (m.ports.map (fun p => "    " ++ p.text) ++ m.statements.map fun s => "    " ++ s.text)) ∧
      "" ∉ linesOf text ∧ text.toList.getLast? ≠ some '\n') ∧
    (c.modules = [] →
      linesOf text = ["circuit " ++ c.name ++ " :", ""] ∧ text.toList.getLast? = some '\n') ∧
    ∀ m ∈ c.modules, (∀ p ∈ m.ports, (Node.port p).print = .ok p.text) ∧
      ∀ s ∈ m.statements, (Node.stmt s).print = .ok s.text := by
  have hcheck : (Node.circuit c).check = .ok () := (Node.print_ok_iff.mp ⟨text, hprint⟩).2
  obtain rfl : c.text = text := Except.ok.inj ((Circuit.print_ok hcheck).symm.trans hprint)
  have hone : NamesOnOneLine [c.tree] := Node.namesOnOneLine hnames
  have hlines := Circuit.linesOf_text hone
  refine ⟨fun hmodules => ?_, fun hmodules => ?_, fun m hm => ?_⟩
  · rw [if_neg hmodules] at hlines
    have hfull : "" ∉ linesOf c.text := by
      rw [hlines, List.mem_cons, not_or]
      refine ⟨fun hempty => ?_, fun hempty => (Circuit.onOneLine_lines hone "" hempty).2 rfl⟩
      simp [String.append_eq_empty_iff] at hempty
    refine ⟨hlines.trans ?_, hfull, not_endsWith_newline hfull⟩
    refine congrArg _ (List.flatMap_congr fun m _ => ?_)
    simp [Module.lines, Function.comp_def]
  · rw [if_pos hmodules] at hlines
    refine ⟨hlines, ?_⟩
    have htext : c.text.toList = ("circuit " ++ c.name ++ " :").toList ++ ['\n'] := by
      simp [c.text_eq, hmodules, joinLines]
    rw [htext, List.getLast?_concat]
  · exact Module.print_content (Circuit.modules_accepted hcheck m hm)

/-- A format of two lines with a quote in it, in the first of two modules. -/
def Circuit.quoting : Circuit :=
  ⟨"top", [⟨"top", [⟨"clk", .clock, .input⟩],
      [.printf (.ref "clk") (.literal 1 (.uint 1)) "\"a\"\nb\n" []]⟩,
    ⟨"idle", [], []⟩]⟩

/-- The printed form of `Circuit.quoting` is five lines. -/
theorem Circuit.print_layout_quoting : ∃ text, Circuit.quoting.print = .ok text ∧
    linesOf text = ["circuit top :", "  module top :", "    input clk : Clock",
      "    printf(clk, UInt<1>(1), \"\\\"a\\\"\\nb\\n\")", "  module idle :"] := by
  have hprint := Circuit.print_ok (c := Circuit.quoting) (by decide +kernel)
  obtain ⟨hlines, -⟩ := Circuit.print_layout Circuit.quoting _ hprint (by decide +kernel)
  exact ⟨_, hprint, (hlines (by decide +kernel)).1.trans (by decide +kernel)⟩

/-- A circuit without modules is well-formed, and its text ends with a newline. -/
theorem Circuit.print_without_modules : (⟨"E", []⟩ : Circuit).print = .ok "circuit E :\n" ∧
    linesOf "circuit E :\n" = ["circuit E :", ""] := by
  decide +kernel

end GuardedRtl.Rtl
