import LeadScoring.Table.Dataset
import Mathlib

/-!
# Quoted tables

Any text can stand in a table as a cell between quotes, where its own quotes are doubled.  The
reader takes commas, quotes and line ends inside as they are, and it trims the cell at last.  So a
table of trimmed cells with a column of labels is read back whole, whatever line ends its lines
have.  Names of columns are cells too: those of the header are trimmed like all others.

Main results:

- Definition `Csv.Reader.Stands`: where the automaton stands, with one lemma for each character that
  a quoted table has.
- Definition `Csv.QuotedText`: the texts of a table with quotes around all its cells.
- Theorem `Csv.map_cells_records`: the records of such a text.
- Theorem `Dataset.ofCsv_quotedText`: a legible table is read back.
-/

namespace LeadScoring.Csv

/-! ## The automaton between two characters -/

namespace Reader

/-- Where the automaton stands, apart from line numbers: inside which part of a record, with what
has been read of the current cell and record in reverse, and behind which records, the last one
first. -/
structure Stands (r : Reader) (mode : Mode) (cell : List Char) (cells : List String)
    (read : List (List String)) : Prop where
  mode_eq : r.mode = mode
  cell_eq : r.cell = cell
  cells_eq : r.cells = cells
  read_eq : r.records.map (·.cells) = read

/-- The cell that ends where a cell has been read in reverse. -/
def cellOf (cell : List Char) : String :=
  Text.trim (String.ofList cell.reverse)

variable {r : Reader} {mode : Mode} {cell : List Char} {cells : List String}
  {read : List (List String)} {c : Char}

theorem stands_start : start.Stands .recordStart [] [] [] :=
  ⟨rfl, rfl, rfl, rfl⟩

/-- A quote opens a cell. -/
theorem Stands.open_quote (h : r.Stands mode cell cells read)
    (hmode : mode = .recordStart ∨ mode = .cellStart) :
    (r.step '"').Stands .quoted cell cells read := by
  obtain ⟨rfl, hcell, hcells, hread⟩ := h
  rcases hmode with hmode | hmode <;> simp only [step, stepCounted, hmode]
  · exact ⟨rfl, hcell, hcells, hread⟩
  · exact ⟨rfl, hcell, hcells, hread⟩

/-- Inside quotes every other character belongs to the cell. -/
theorem Stands.add (h : r.Stands .quoted cell cells read) (hc : c ≠ '"') :
    (r.step c).Stands .quoted (c :: cell) cells read := by
  obtain ⟨hmode, rfl, hcells, hread⟩ := h
  simp only [step, stepCounted, hmode, if_neg hc]
  exact ⟨rfl, rfl, hcells, hread⟩

/-- A quote inside of a quoted cell may be its end. -/
theorem Stands.close_quote (h : r.Stands .quoted cell cells read) :
    (r.step '"').Stands .quoteInside cell cells read := by
  obtain ⟨hmode, hcell, hcells, hread⟩ := h
  simp only [step, stepCounted, hmode]
  exact ⟨rfl, hcell, hcells, hread⟩

/-- A second quote takes the end of the cell back and stands for one. -/
theorem Stands.double_quote (h : r.Stands .quoteInside cell cells read) :
    (r.step '"').Stands .quoted ('"' :: cell) cells read := by
  obtain ⟨hmode, rfl, hcells, hread⟩ := h
  simp only [step, stepCounted, hmode]
  exact ⟨rfl, rfl, hcells, hread⟩

/-- A comma behind the end of a quoted cell delivers the cell. -/
theorem Stands.comma (h : r.Stands .quoteInside cell cells read) :
    (r.step ',').Stands .cellStart [] (cellOf cell :: cells) read := by
  obtain ⟨hmode, rfl, rfl, hread⟩ := h
  simp only [step, stepCounted, hmode]
  exact ⟨rfl, rfl, rfl, hread⟩

/-- A line break behind the end of a quoted cell delivers the record. -/
theorem Stands.end_record (h : r.Stands .quoteInside cell cells read) (hc : isBreak c = true) :
    (r.step c).Stands .recordStart [] [] ((cellOf cell :: cells).reverse :: read) := by
  obtain ⟨hmode, rfl, rfl, rfl⟩ := h
  have hquote : c ≠ '"' := by
    rintro rfl
    cases hc
  have hcomma : c ≠ ',' := by
    rintro rfl
    cases hc
  simp only [step, stepCounted, hmode, stepPlain, if_neg hquote, if_neg hcomma, if_pos hc]
  exact ⟨rfl, rfl, rfl, rfl⟩

/-- Between records further line ends are skipped. -/
theorem Stands.skip (h : r.Stands .recordStart cell cells read) (hc : isBreak c = true) :
    (r.step c).Stands .recordStart cell cells read := by
  obtain ⟨hmode, hcell, hcells, hread⟩ := h
  simp only [step, stepCounted, hmode, if_pos hc]
  exact ⟨rfl, hcell, hcells, hread⟩

/-- At the beginning of a record the reader has delivered all that it read. -/
theorem Stands.finish_eq (h : r.Stands .recordStart cell cells read) :
    r.finish.map (·.cells) = read.reverse := by
  rw [finish, h.mode_eq, List.map_reverse, h.read_eq]

/-! ## Reading what is written -/

/-- The characters of a cell are read back from between its quotes. -/
theorem Stands.escaped (h : r.Stands .quoted cell cells read) (chars : List Char) :
    ((chars.flatMap fun c => if c = '"' then ['"', '"'] else [c]).foldl step r).Stands .quoted
      (chars.reverse ++ cell) cells read := by
  induction chars generalizing r cell with
  | nil => exact h
  | cons c chars ih =>
    rw [List.flatMap_cons, List.foldl_append, List.reverse_cons, List.append_assoc]
    apply ih
    split_ifs with hc
    · rw [hc]
      exact h.close_quote.double_quote
    · exact h.add hc

/-- A quoted cell is read as its text. -/
theorem Stands.quotedCell (h : r.Stands mode [] cells read)
    (hmode : mode = .recordStart ∨ mode = .cellStart) (text : String) :
    ((Csv.quotedCell text).foldl step r).Stands .quoteInside text.toList.reverse cells read := by
  have hcell := (h.open_quote hmode).escaped text.toList
  rw [List.append_nil] at hcell
  rw [Csv.quotedCell, List.cons_append, List.foldl_cons, List.foldl_append]
  exact hcell.close_quote

/-- A cell is delivered without the blank characters at its ends. -/
theorem cellOf_reverse (text : String) : cellOf text.toList.reverse = Text.trim text := by
  rw [cellOf, List.reverse_reverse, String.ofList_toList]

/-- Behind the last quote of a record all cells but the last one have been ended. -/
theorem Stands.quotedRecord (h : r.Stands mode [] cells read)
    (hmode : mode = .recordStart ∨ mode = .cellStart) {row : List String} (hrow : row ≠ []) :
    ∃ cell ended, ((Csv.quotedRecord row).foldl step r).Stands .quoteInside cell ended read ∧
      cellOf cell :: ended = (row.map Text.trim).reverse ++ cells := by
  induction row generalizing r mode cells with
  | nil => exact absurd rfl hrow
  | cons text row ih =>
    have hcell := h.quotedCell hmode text
    cases row with
    | nil =>
      refine ⟨_, _, hcell, ?_⟩
      rw [cellOf_reverse]
      rfl
    | cons other row =>
      obtain ⟨cell, ended, hrest, hcells⟩ := ih hcell.comma (Or.inr rfl) (List.cons_ne_nil _ _)
      refine ⟨cell, ended, ?_, ?_⟩
      · rw [Csv.quotedRecord, List.foldl_append, List.foldl_cons]
        · exact hrest
        · exact List.cons_ne_nil _ _
      · rw [hcells, cellOf_reverse, List.map_cons (a := text), List.reverse_cons,
          List.append_assoc]
        rfl

end Reader

/-- A line feed, alone or behind a carriage return. -/
def IsLineEnd (lineEnd : List Char) : Prop :=
  lineEnd = ['\n'] ∨ lineEnd = ['\r', '\n']

/-- The texts of a table with quotes around all its cells.  Every line has a line end of its own. -/
inductive QuotedText : List (List String) → List Char → Prop where
  | nil : QuotedText [] []
  | cons {row : List String} {rows : List (List String)} {lineEnd text : List Char}
      (hend : IsLineEnd lineEnd) (hrest : QuotedText rows text) :
      QuotedText (row :: rows) (quotedRecord row ++ lineEnd ++ text)

/-- A table that is written with one line end throughout is such a text. -/
theorem quotedText_quotedTable {lineEnd : List Char} (hend : IsLineEnd lineEnd)
    (rows : List (List String)) : QuotedText rows (quotedTable lineEnd rows) := by
  induction rows with
  | nil => exact .nil
  | cons row rows ih => exact .cons hend ih

namespace Reader

/-- Every kind of line end delivers the record in front of it. -/
theorem Stands.line_end {r : Reader} {cell : List Char} {cells : List String}
    {read : List (List String)} {lineEnd : List Char} (h : r.Stands .quoteInside cell cells read)
    (hend : IsLineEnd lineEnd) :
    (lineEnd.foldl step r).Stands .recordStart [] [] ((cellOf cell :: cells).reverse :: read) := by
  rcases hend with rfl | rfl
  · exact h.end_record rfl
  · exact (h.end_record rfl).skip rfl

/-- The automaton reads the rows of a quoted text one after the other, each cell trimmed. -/
theorem Stands.quotedText {r : Reader} {read rows : List (List String)} {text : List Char}
    (h : r.Stands .recordStart [] [] read) (htext : QuotedText rows text)
    (hrows : ∀ row ∈ rows, row ≠ []) :
    (text.foldl step r).Stands .recordStart [] []
      ((rows.map (·.map Text.trim)).reverse ++ read) := by
  induction htext generalizing r read with
  | nil => exact h
  | @cons row rows lineEnd text hend hrest ih =>
    obtain ⟨cell, ended, hrecord, hcells⟩ :=
      h.quotedRecord (Or.inl rfl) (hrows row List.mem_cons_self)
    have hline := hrecord.line_end hend
    rw [hcells, List.append_nil, List.reverse_reverse] at hline
    rw [List.foldl_append, List.foldl_append, List.map_cons, List.reverse_cons, List.append_assoc]
    exact ih hline fun row hrow => hrows row (List.mem_cons_of_mem _ hrow)

end Reader

/-- A quoted table has no byte order mark in front. -/
theorem dropMark_of_quotedText {rows : List (List String)} {text : List Char}
    (htext : QuotedText rows text) (hrows : ∀ row ∈ rows, row ≠ []) : dropMark text = text := by
  cases htext with
  | nil => rfl
  | @cons row rows lineEnd text hend hrest =>
    match row, hrows row List.mem_cons_self with
    | [_], _ => rfl
    | _ :: _ :: _, _ => rfl

/-- The records of a quoted text are its rows, their cells trimmed. -/
theorem map_cells_records {rows : List (List String)} {text : List Char}
    (htext : QuotedText rows text) (hrows : ∀ row ∈ rows, row ≠ []) :
    (records (String.ofList text)).map (·.cells) = rows.map (·.map Text.trim) := by
  have hread := Reader.stands_start.quotedText htext hrows
  rw [records, String.toList_ofList, dropMark_of_quotedText htext hrows, hread.finish_eq,
    List.append_nil, List.reverse_reverse]

end LeadScoring.Csv

namespace LeadScoring

/-! ## Labels and samples -/

/-- The spellings of a label in small letters. -/
def Label.spellings : Label → List String
  | positive => ["1", "1.0", "true", "yes"]
  | negative => ["0", "0.0", "false", "no"]

/-- Every spelling of a label is read as the label. -/
theorem Label.ofCell?_of_mem_spellings {cell : String} {label : Label}
    (htrim : Text.trim cell = cell) (h : Text.lowerAscii cell ∈ label.spellings) :
    ofCell? cell = some label := by
  rw [ofCell?, htrim]
  generalize Text.lowerAscii cell = word at h
  cases label with
  | negative => fin_cases h <;> rfl
  | positive => fin_cases h <;> rfl

namespace Dataset

/-- Records with the cells of samples are read as these samples. -/
theorem samplesOf_eq_ok {width target : ℕ} {records : List Csv.Record} {samples : List Sample}
    (hcells : records.map (·.cells) = samples.map (·.cells))
    (hwidth : ∀ s ∈ samples, s.cells.length = width)
    (hlabel : ∀ s ∈ samples, Label.ofCell? (s.cells.getD target "") = some s.label) :
    samplesOf width target records = .ok samples := by
  induction records generalizing samples with
  | nil =>
    obtain rfl : samples = [] := List.map_eq_nil_iff.1 hcells.symm
    rfl
  | cons r records ih =>
    obtain ⟨s, samples, rfl⟩ : ∃ s others, samples = s :: others := by
      cases samples with
      | nil => cases hcells
      | cons s samples => exact ⟨s, samples, rfl⟩
    obtain ⟨hr, hrest⟩ : r.cells = s.cells ∧ records.map (·.cells) = samples.map (·.cells) :=
      List.cons.inj hcells
    have hsample : sampleOf width target r = .ok s := by
      have hr_width : ¬ r.cells.length ≠ width := by
        rw [hr, hwidth s List.mem_cons_self]
        exact fun hne => hne rfl
      rw [sampleOf, if_neg hr_width, hr]
      dsimp only
      rw [hlabel s List.mem_cons_self]
    rw [samplesOf, hsample,
      ih hrest (fun s hs => hwidth s (List.mem_cons_of_mem _ hs))
        (fun s hs => hlabel s (List.mem_cons_of_mem _ hs))]

/-- A table that can be read back: a column of labels, as many cells in every row, no blank
characters at the ends of a cell, and a spelling of its label in every row. -/
structure Legible (header : List String) (samples : List Sample) : Prop where
  target : targetColumn ∈ header
  nonempty : samples ≠ []
  width : ∀ s ∈ samples, s.cells.length = header.length
  trimmed : ∀ s ∈ samples, ∀ cell ∈ s.cells, Text.trim cell = cell
  labelled : ∀ s ∈ samples, ∃ cell, s.cells[header.idxOf targetColumn]? = some cell ∧
    Text.lowerAscii cell ∈ s.label.spellings

variable {header : List String} {samples : List Sample} {text : List Char}

theorem idxOf?_eq_some_idxOf {name : String} (h : name ∈ header) :
    header.idxOf? name = some (header.idxOf name) := by
  induction header with
  | nil => cases h
  | cons other header ih =>
    rw [List.idxOf?_cons, List.idxOf_cons]
    cases hother : other == name with
    | true => rfl
    | false =>
      have hne : name ≠ other := fun heq => by simp [heq] at hother
      rw [if_neg Bool.false_ne_true, cond_false, ih ((List.mem_cons.1 h).resolve_left hne)]
      rfl

namespace Legible

theorem row_ne_nil (h : Legible (header.map Text.trim) samples) :
    ∀ row ∈ header :: samples.map (·.cells), row ≠ [] := by
  have hheader : 0 < header.length := by
    have hpos := List.length_pos_of_mem h.target
    rwa [List.length_map] at hpos
  intro row hrow
  rw [← List.length_pos_iff]
  rcases List.mem_cons.1 hrow with rfl | hrow
  · exact hheader
  · obtain ⟨s, hs, rfl⟩ := List.mem_map.1 hrow
    rwa [h.width s hs, List.length_map]

/-- Cells of a legible table are not changed by trimming. -/
theorem map_trim_cells (h : Legible header samples) :
    (samples.map (·.cells)).map (·.map Text.trim) = samples.map (·.cells) := by
  rw [List.map_map]
  refine List.map_congr_left fun s hs => ?_
  exact (List.map_congr_left (h.trimmed s hs)).trans (List.map_id _)

/-- The labels of a legible table are read back. -/
theorem ofCell?_eq (h : Legible header samples) {s : Sample} (hs : s ∈ samples) :
    Label.ofCell? (s.cells.getD (header.idxOf targetColumn) "") = some s.label := by
  obtain ⟨cell, hcell, hword⟩ := h.labelled s hs
  rw [List.getD_eq_getElem?_getD, hcell, Option.getD_some]
  exact Label.ofCell?_of_mem_spellings (h.trimmed s hs cell (List.mem_of_getElem? hcell)) hword

/-- Records with the header's names and the cells of the samples are a dataset. -/
theorem ofCsv_eq_ok (h : Legible header samples) {text : String}
    (hcells : (Csv.records text).map (·.cells) = header :: samples.map (·.cells)) :
    ofCsv text = .ok ⟨header, samples⟩ := by
  obtain ⟨head, records, hread, hhead, hrest⟩ := List.map_eq_cons_iff.1 hcells
  have hsamples : samplesOf header.length (header.idxOf targetColumn) records = .ok samples :=
    samplesOf_eq_ok hrest h.width fun s hs => h.ofCell?_eq hs
  have hsome : ¬ samples.isEmpty = true := by simpa using h.nonempty
  rw [ofCsv, hread]
  dsimp only
  rw [hhead, idxOf?_eq_some_idxOf h.target]
  dsimp only
  rw [hsamples]
  dsimp only
  rw [if_neg hsome]

end Legible

/-- A table that is written with quotes around all its cells is read back, the names of its header
without the blank characters at their ends.  A header without such characters is read as it is. -/
theorem ofCsv_quotedText (h : Legible (header.map Text.trim) samples)
    (htext : Csv.QuotedText (header :: samples.map (·.cells)) text) :
    ofCsv (String.ofList text) = .ok ⟨header.map Text.trim, samples⟩ ∧
      ((∀ name ∈ header, Text.trim name = name) →
        ofCsv (String.ofList text) = .ok ⟨header, samples⟩) := by
  have hcells := Csv.map_cells_records htext h.row_ne_nil
  rw [List.map_cons, h.map_trim_cells] at hcells
  have hread := h.ofCsv_eq_ok hcells
  refine ⟨hread, fun hnames => ?_⟩
  have hheader : header.map Text.trim = header := (List.map_congr_left hnames).trans (List.map_id _)
  rwa [hheader] at hread

/-- Rows with all the characters that a reader could trip over. -/
def quotedSamples : List Sample :=
  [⟨["Lee, Jr.", "say \"hi\",\r\ntwice", "YES", "no"], .positive⟩,
    ⟨["\"", "", "0.0", "?"], .negative⟩]

/-- A table whose header has blank characters around its names and the target twice. -/
theorem ofCsv_quotedText_paddedHeader :
    Legible (["Name ", "Notes", " Converted", "Converted"].map Text.trim) quotedSamples ∧
      Csv.QuotedText (["Name ", "Notes", " Converted", "Converted"] :: quotedSamples.map (·.cells))
        (Csv.quotedTable ['\r', '\n']
          (["Name ", "Notes", " Converted", "Converted"] :: quotedSamples.map (·.cells))) ∧
      ofCsv (String.ofList (Csv.quotedTable ['\r', '\n']
          (["Name ", "Notes", " Converted", "Converted"] :: quotedSamples.map (·.cells)))) =
        .ok ⟨["Name", "Notes", "Converted", "Converted"], quotedSamples⟩ := by
  have hlegible :
      Legible (["Name ", "Notes", " Converted", "Converted"].map Text.trim) quotedSamples :=
    ⟨by decide, by decide, by decide, by decide, by decide⟩
  have hend : Csv.IsLineEnd ['\r', '\n'] := Or.inr rfl
  have htext := Csv.quotedText_quotedTable hend
    (["Name ", "Notes", " Converted", "Converted"] :: quotedSamples.map (·.cells))
  refine ⟨hlegible, htext, (ofCsv_quotedText hlegible htext).1.trans ?_⟩
  decide

/-- A name with a blank character at its start loses it in a table that is legible otherwise. -/
theorem ofCsv_trims_name :
    Legible [" Name", "Converted"] [⟨["Ann", "1"], .positive⟩] ∧
      Csv.QuotedText [[" Name", "Converted"], ["Ann", "1"]]
        (Csv.quotedTable ['\n'] [[" Name", "Converted"], ["Ann", "1"]]) ∧
      ofCsv (String.ofList (Csv.quotedTable ['\n'] [[" Name", "Converted"], ["Ann", "1"]])) ≠
        .ok ⟨[" Name", "Converted"], [⟨["Ann", "1"], .positive⟩]⟩ := by
  refine ⟨⟨by decide, by decide, by decide, by decide, by decide⟩,
    Csv.quotedText_quotedTable (Or.inl rfl) _, ?_⟩
  decide +kernel

end Dataset

end LeadScoring
