/-
  ScriptMachine.Proofs.Enumerations

  How an enumeration numbers its names.  Row by row it lists entries: new starts of the
  counter, and names (`Enumeration.entries`).  Loading goes through them in order
  (`Compile.loadEnum_eq`), and in the end a name stands for the number that its last entry
  got: the last start in front of it, and one more for each name since
  (`Enumeration.names_numbered`).
-/

import Mathlib.Data.List.Induction
import Mathlib.Data.List.TakeWhile
import ScriptMachine.Proofs.Steps

namespace ScriptMachine

namespace Enumeration

-- ============================================================================
-- Rows, words and entries
-- ============================================================================

/-- A row without the carriage return that belongs to its terminator. -/
def withoutReturn (row : List Char) : List Char :=
  if row.getLast? = some '\r' then row.dropLast else row

/-- The rows of a text: each ends at a line feed, and what follows the last one is a row
unless it is empty. -/
def rows (cs : List Char) : List (List Char) :=
  (cs.splitOn '\n').dropLast.map withoutReturn ++
    ((cs.splitOn '\n').getLast?.filter (!·.isEmpty)).toList

/-- The characters between the names of a row. -/
def separators : List Char :=
  ',' :: blanks

/-- The words of a row: what stands between separators. -/
def words (row : List Char) : List (List Char) :=
  (row.splitOnP separators.contains).filter (!·.isEmpty)

/-- The words of a row up to the first that opens a comment. -/
def listed (row : List Char) : List (List Char) :=
  (words row).takeWhile fun word => !List.isPrefixOf ['/', '/'] word

/-- What a row says: the counter starts anew with the number in a word, or a name takes the
next number. -/
inductive Entry where
  | start (word : List Char)
  | name (name : String)
  deriving DecidableEq

/-- The entries of a row.  A row that starts with `;` has none, and one that starts with `#`
a start and no names; blanks in front do not count. -/
def entriesOfRow (row : List Char) : List Entry :=
  match row.dropWhile blanks.contains with
  | ';' :: _ => []
  | '#' :: cs =>
    [.start (((cs.dropWhile ['#'].contains).dropWhile blanks.contains).takeWhile
      (!blanks.contains ·))]
  | cs => (listed cs).map fun word => .name (String.ofList word)

/-- The entries of a text, in order. -/
def entries (source : String) : List Entry :=
  (rows source.toList).flatMap entriesOfRow

/-! ## Numbers -/

/-- The number that a start gives. -/
def Entry.number? : Entry → Option Int64
  | start word => Text.readInt64? word
  | name _ => none

/-- An entry that lists a name. -/
def Entry.isName : Entry → Bool
  | start _ => false
  | name _ => true

/-- The number of the last start among entries, 0 without one. -/
def lastStart (es : List Entry) : Int64 :=
  (es.filterMap Entry.number?).getLast?.getD 0

/-- How many names are listed since the last start. -/
def namesSince (es : List Entry) : Nat :=
  (es.reverse.takeWhile Entry.isName).length

/-- The number of a name that is listed behind these entries. -/
def numberBehind (es : List Entry) : Int :=
  (lastStart es).toInt + namesSince es

-- ============================================================================
-- The rows of a text
-- ============================================================================

theorem rows_of_not_mem {row : List Char} (h : '\n' ∉ row) :
    rows row = ((some row).filter (!·.isEmpty)).toList := by
  simp only [rows, List.splitOn_eq_singleton h, List.dropLast_singleton, List.map_nil,
    List.nil_append, List.getLast?_singleton]

theorem rows_append {row : List Char} (h : '\n' ∉ row) (cs : List Char) :
    rows (row ++ '\n' :: cs) = withoutReturn row :: rows cs := by
  have hrow : ∀ c ∈ row, (c == '\n') = false := by
    intro c hc
    simpa using fun heq : c = '\n' => h (heq ▸ hc)
  have hsplit : (row ++ '\n' :: cs).splitOn '\n' = row :: cs.splitOn '\n' :=
    List.splitOnP_append_cons_of_forall_mem hrow '\n' (by simp) cs
  have hne : cs.splitOn '\n' ≠ [] := List.splitOn_ne_nil _ _
  simp only [rows, hsplit, List.dropLast_cons_of_ne_nil hne, List.map_cons, List.cons_append,
    List.getLast?_cons_of_ne_nil hne]

/-- The return in front of a line feed is seen on the row read so far, which is reversed. -/
theorem withoutReturn_reverse (row : List Char) :
    withoutReturn row.reverse =
      (match row with
        | '\r' :: row => row
        | row => row).reverse := by
  unfold withoutReturn
  split
  · rename_i h
    obtain ⟨rest, rfl⟩ : ∃ rest, row = '\r' :: rest := by
      rw [List.getLast?_reverse] at h
      exact List.head?_eq_some_iff.1 h
    simp
  · rename_i h
    split
    · exact absurd (by simp) h
    · rfl

theorem splitFeedsFrom_eq {line : List Char} (h : '\n' ∉ line) (lines : List (List Char))
    (cs : List Char) :
    Source.splitFeedsFrom line lines cs = lines.reverse ++ rows (line.reverse ++ cs) := by
  induction cs generalizing line lines with
  | nil =>
    rw [List.append_nil, rows_of_not_mem (by simpa using h), Source.splitFeedsFrom]
    cases line with
    | nil => simp
    | cons c line => simp [Option.filter]
  | cons c cs ih =>
    by_cases hc : c = '\n'
    · subst hc
      have hfeed : Source.splitFeedsFrom line lines ('\n' :: cs) =
          Source.splitFeedsFrom [] (withoutReturn line.reverse :: lines) cs := by
        rw [withoutReturn_reverse]
        rfl
      rw [rows_append (by simpa using h), hfeed, ih (by simp)]
      simp
    · have hline : '\n' ∉ c :: line := by
        rintro (_ | ⟨_, hmem⟩)
        · exact hc rfl
        · exact h hmem
      rw [Source.splitFeedsFrom, ih hline]
      · simp
      · exact hc

theorem splitFeeds_eq (cs : List Char) : Source.splitFeeds cs = rows cs := by
  rw [Source.splitFeeds, splitFeedsFrom_eq (by simp)]
  rfl

-- ============================================================================
-- The words of a row
-- ============================================================================

theorem words_skip (cs : List Char) : words (cs.dropWhile separators.contains) = words cs := by
  induction cs with
  | nil => rfl
  | cons c cs ih =>
    by_cases hc : separators.contains c = true
    · rw [List.dropWhile_cons_of_pos hc, ih, words, words,
        List.splitOnP_cons_eq_if_modifyHead, if_pos hc]
      rfl
    · rw [List.dropWhile_cons_of_neg hc]

/-- A word is first when it stands in front of a separator or at the end. -/
theorem words_append {word : List Char} (cs : List Char) (hne : word ≠ [])
    (hword : ∀ c ∈ word, separators.contains c = false)
    (hcs : ∀ c, cs.head? = some c → separators.contains c = true) :
    words (word ++ cs) = word :: words cs := by
  cases cs with
  | nil => simp [words, List.splitOnP_eq_singleton hword, hne]
  | cons c cs =>
    have hc : separators.contains c = true := hcs c rfl
    rw [← words_skip (c :: cs), List.dropWhile_cons_of_pos hc, words_skip]
    simp [words, List.splitOnP_append_cons_of_forall_mem hword c hc, hne]

/-- The first word behind the separators in front of it, and the words behind it. -/
theorem words_eq (cs : List Char) (hcs : cs.head?.map separators.contains = some false) :
    cs.takeWhile (!separators.contains ·) ≠ [] ∧
      words cs = cs.takeWhile (!separators.contains ·) ::
        words (cs.dropWhile (!separators.contains ·)) := by
  have hne : cs.takeWhile (!separators.contains ·) ≠ [] := by
    cases cs with
    | nil => cases hcs
    | cons c cs =>
      have hc : separators.contains c = false := Option.some.inj hcs
      rw [List.takeWhile_cons_of_pos (by rw [hc]; rfl)]
      exact List.cons_ne_nil _ _
  refine ⟨hne, ?_⟩
  have hsplit := words_append (cs.dropWhile (!separators.contains ·)) hne
    (fun c hc => by simpa using List.mem_takeWhile_imp hc) fun c hc => by
      have hhead := List.head?_dropWhile_not (!separators.contains ·) cs
      rw [hc] at hhead
      simpa using hhead
  rwa [List.takeWhile_append_dropWhile] at hsplit

/-- Where the scanner finds no word there is none. -/
theorem words_of_none {s : Scanner} (h : (s.skip separators).word? separators = none) :
    words s.rest = [] := by
  unfold Scanner.word? at h
  split at h
  · rename_i hempty
    have hrest : s.rest.dropWhile separators.contains = [] := List.isEmpty_iff.1 hempty
    rw [← words_skip, hrest]
    rfl
  · cases h

/-- The word that the scanner finds is the first one, and it is not empty. -/
theorem words_of_some {s t : Scanner} {word : List Char}
    (h : (s.skip separators).word? separators = some (word, t)) :
    word ≠ [] ∧ words s.rest = word :: words t.rest := by
  unfold Scanner.word? at h
  split at h
  · cases h
  · rename_i hne
    cases h
    have hhead := List.head?_dropWhile_not separators.contains s.rest
    cases hrest : s.rest.dropWhile separators.contains with
    | nil => exact absurd (List.isEmpty_iff.2 hrest) hne
    | cons c cs =>
      rw [hrest] at hhead
      have hfirst := words_eq (s.rest.dropWhile separators.contains)
        (by rw [hrest]; exact congrArg some hhead)
      rw [words_skip] at hfirst
      exact hfirst

-- ============================================================================
-- Going through entries
-- ============================================================================

/-- The counter and the symbols behind an entry. -/
def enter : Int64 × Symbols → Entry → Int64 × Symbols
  | (_, t), .start word => ((Text.readInt64? word).getD 0, t)
  | (n, t), .name s => (n + 1, t.insert s (.constant (.number n)))

/-- An entry that loads: a start with a number of 64 bits, or a name that is not reserved. -/
def Entry.Loads : Entry → Prop
  | start word => (Text.readInt64? word).isSome
  | name s => Symbols.isReserved s = false

/-- A name that no entry lists keeps its symbol. -/
theorem get?_enter_of_not_mem {es : List Entry} {name : String} (h : Entry.name name ∉ es)
    (p : Int64 × Symbols) : (es.foldl enter p).2.get? name = p.2.get? name := by
  induction es generalizing p with
  | nil => rfl
  | cons e es ih =>
    obtain ⟨hne, hes⟩ := not_or.1 (mt List.mem_cons.2 h)
    rw [List.foldl_cons, ih hes]
    cases e with
    | start word => rfl
    | name other =>
      have hother : other ≠ name := fun heq => hne (heq ▸ rfl)
      rw [enter, Symbols.get?_insert, if_neg hother]

/-- The last entry of a name gives it the number that the counter has there. -/
theorem get?_enter {es : List Entry} {i : Nat} {name : String} (h : es[i]? = some (.name name))
    (hlast : Entry.name name ∉ es.drop (i + 1)) (p : Int64 × Symbols) :
    (es.foldl enter p).2.get? name =
      some (.constant (.number ((es.take i).foldl enter p).1)) := by
  obtain ⟨hi, hget⟩ := List.getElem?_eq_some_iff.1 h
  have hsplit : es = es.take i ++ .name name :: es.drop (i + 1) := by
    rw [← hget, ← List.drop_eq_getElem_cons hi, List.take_append_drop]
  have hfold : es.foldl enter p =
      (es.drop (i + 1)).foldl enter (enter ((es.take i).foldl enter p) (.name name)) := by
    rw [← List.foldl_cons, ← List.foldl_append, ← hsplit]
  rw [hfold, get?_enter_of_not_mem hlast, enter, Symbols.get?_insert, if_pos rfl]

theorem lastStart_append (es : List Entry) (e : Entry) :
    lastStart (es ++ [e]) = e.number?.getD (lastStart es) := by
  unfold lastStart
  cases hn : e.number? with
  | none => simp [List.filterMap_append, hn]
  | some n => simp [List.filterMap_append, hn]

theorem namesSince_append (es : List Entry) (e : Entry) :
    namesSince (es ++ [e]) = if e.isName then namesSince es + 1 else 0 := by
  unfold namesSince
  rw [List.reverse_concat, List.takeWhile_cons]
  split <;> rfl

/-- The counter in closed form. -/
theorem counter_enter {es : List Entry} (h : ∀ e ∈ es, e.Loads) (t : Symbols) :
    (es.foldl enter (0, t)).1 = lastStart es + Int64.ofNat (namesSince es) := by
  induction es using List.reverseRecOn with
  | nil => rfl
  | append_singleton es e ih =>
    have hes := ih fun e he => h e (List.mem_append_left _ he)
    have he : e.Loads := h e (by simp)
    rw [List.foldl_append, List.foldl_cons, List.foldl_nil, lastStart_append, namesSince_append]
    cases e with
    | start word =>
      obtain ⟨n, hn⟩ := Option.isSome_iff_exists.1 he
      simp [enter, Entry.number?, Entry.isName, hn]
    | name name =>
      simp [enter, Entry.number?, Entry.isName, hes, Int64.ofNat_add, Int64.add_assoc]

/-- The number behind entries is the counter there, unless that left the 64 bits. -/
theorem toInt_counter {es : List Entry} (hfits : numberBehind es < Int64.maxValue.toInt) :
    (lastStart es + Int64.ofNat (namesSince es)).toInt = numberBehind es := by
  have hmax : Int64.maxValue.toInt = 2 ^ 63 - 1 := by decide
  have hlow := Int64.le_toInt (lastStart es)
  rw [hmax] at hfits
  rw [Int64.toInt_add, Int64.toInt_ofNat', Int64.size, Int.add_bmod_bmod]
  unfold numberBehind at hfits ⊢
  exact Int.bmod_eq_of_le (by omega) (by omega)

end Enumeration

-- ============================================================================
-- Loading
-- ============================================================================

namespace Compile

open Enumeration

/-- Where the compiler is when it has gone through entries: the counter and the symbols have
changed. -/
def loaded (es : List Entry) (counter : Int64) (c : Compiler) :
    EStateM.Result Error Compiler Int64 :=
  .ok (es.foldl enter (counter, c.symbols)).1
    { c with symbols := (es.foldl enter (counter, c.symbols)).2 }

theorem setName_eq {name : String} (hne : name ≠ "") (hname : Symbols.isReserved name = false)
    (s : Symbol) (c : Compiler) :
    onSymbols (·.set name s) c = .ok () { c with symbols := c.symbols.insert name s } := by
  simp only [onSymbols, Symbols.set_eq_ok_iff.2 ⟨hne, hname, rfl⟩]

theorem enumNames_eq (counter : Int64) (s : Scanner) (c : Compiler)
    (h : ∀ word ∈ listed s.rest, Symbols.isReserved (String.ofList word) = false) :
    enumNames counter s c =
      loaded ((listed s.rest).map fun word => .name (String.ofList word)) counter c := by
  fun_induction enumNames counter s generalizing c with
  | case1 counter s hw =>
    rw [listed, words_of_none hw]
    rfl
  | case2 counter s t hw => exact absurd rfl (words_of_some hw).1
  | case3 counter s word t hw hne hcomment =>
    rw [listed, (words_of_some hw).2, List.takeWhile_cons_of_neg (by simp [hcomment])]
    rfl
  | case4 counter s word t hw hne hcomment ih =>
    have hlisted : listed s.rest = word :: listed t.rest := by
      rw [listed, (words_of_some hw).2, List.takeWhile_cons_of_pos (by simp [hcomment])]
      rfl
    rw [hlisted] at h ⊢
    obtain ⟨hword, hrest⟩ := List.forall_mem_cons.1 h
    have hname : String.ofList word ≠ "" := fun heq => hne (String.ofList_eq_empty_iff.1 heq)
    rw [bind_of_eq_ok (setName_eq hname hword _ c), ih _ hrest]
    rfl

theorem tableNumber_eq {stop : List Char} {s : Scanner} {n : Int64}
    (h : Text.readInt64? (s.rest.takeWhile fun c => !stop.contains c) = some n) (c : Compiler) :
    tableNumber (s.word? stop) c = .ok n c := by
  have hword : ((s.word? stop).map (·.1)).getD [] = s.rest.takeWhile fun c => !stop.contains c := by
    unfold Scanner.word?
    split
    · rename_i hempty
      rw [List.isEmpty_iff.1 hempty]
      rfl
    · rfl
  simp only [tableNumber, hword, h]
  rfl

theorem enumLine_eq {text : List Char} (h : ∀ e ∈ entriesOfRow text, e.Loads) (counter : Int64)
    (c : Compiler) : enumLine counter text c = loaded (entriesOfRow text) counter c := by
  have henum : enumLine counter text =
      match text.dropWhile blanks.contains with
      | ';' :: _ => pure counter
      | '#' :: _ =>
        tableNumber (((((Scanner.ofLine text).skip blanks).skip ['#']).skip blanks).word? blanks)
      | _ => enumNames counter ((Scanner.ofLine text).skip blanks) := rfl
  rw [henum]
  unfold entriesOfRow at h ⊢
  split
  · rename_i cs hrow
    rfl
  · rename_i cs hrow
    simp only [hrow, List.forall_mem_singleton] at h
    obtain ⟨n, hn⟩ := Option.isSome_iff_exists.1 h
    have hrest : ((((Scanner.ofLine text).skip blanks).skip ['#']).skip blanks).rest =
        (cs.dropWhile ['#'].contains).dropWhile blanks.contains := by
      show ((text.dropWhile blanks.contains).dropWhile ['#'].contains).dropWhile _ = _
      rw [hrow, List.dropWhile_cons_of_pos rfl]
    rw [tableNumber_eq (by rw [hrest]; exact hn)]
    simp only [loaded, List.foldl_cons, List.foldl_nil, enter, hn, Option.getD_some]
  · rename_i cs hsemicolon hhash
    simp only at h
    exact enumNames_eq counter _ c fun word hword => h _ (List.mem_map_of_mem hword)

/-- The rows go one after the other, each from the counter that the last one left. -/
theorem enumLines_eq (file : String) (number : Nat) {texts : List (List Char)}
    (h : ∀ e ∈ texts.flatMap entriesOfRow, e.Loads) (counter : Int64) (c : Compiler) :
    enumLines file number counter texts c =
      .ok () { c with symbols :=
        ((texts.flatMap entriesOfRow).foldl enter (counter, c.symbols)).2 } := by
  induction texts generalizing number counter c with
  | nil => rfl
  | cons text rest ih =>
    rw [List.flatMap_cons] at h ⊢
    have htext := enumLine_eq (fun e he => h e (List.mem_append_left _ he)) counter c
    have hline : onLine file number text (enumLine counter text) c = _ := onLine_eq_ok_iff.2 htext
    rw [enumLines, bind_of_eq_ok hline, ih _ (fun e he => h e (List.mem_append_right _ he)),
      List.foldl_append]

theorem loadEnum_eq {file source : String} (h : ∀ e ∈ entries source, e.Loads) (c : Compiler) :
    loadEnum file source c =
      .ok () { c with
        file
        symbols := ((entries source).foldl enter (0, c.symbols)).2 } := by
  show enumLines file 1 0 (Source.splitFeeds source.toList) { c with file } = _
  rw [splitFeeds_eq]
  exact enumLines_eq file 1 h 0 { c with file }

end Compile

namespace Enumeration

/-- An enumeration numbers its names in sequence.  Where every start carries a number of 64
bits, no listed name is reserved and the numbers stay below the largest one, the text loads,
whatever the state of the compiler, and changes the symbols alone: the last entry of a name
gives it the number of the last start in front, or 0, and one more for each name listed
since, and a name that is not listed keeps the symbol it had. -/
theorem names_numbered (file source : String) (c : Compiler)
    (hstarts : ∀ word, .start word ∈ entries source → (Text.readInt64? word).isSome)
    (hnames : ∀ name, .name name ∈ entries source → Symbols.isReserved name = false)
    (hfits : ∀ i name, (entries source)[i]? = some (.name name) →
      numberBehind ((entries source).take i) < Int64.maxValue.toInt) :
    ∃ t, Compile.loadEnum file source c = .ok () { c with file, symbols := t } ∧
      (∀ i name, (entries source)[i]? = some (.name name) →
        .name name ∉ (entries source).drop (i + 1) →
        ∃ n, t.get? name = some (.constant (.number n)) ∧
          n.toInt = numberBehind ((entries source).take i)) ∧
      ∀ name, .name name ∉ entries source → t.get? name = c.symbols.get? name := by
  have hloads : ∀ e ∈ entries source, e.Loads := by
    rintro (word | name) he
    · exact hstarts word he
    · exact hnames name he
  refine ⟨_, Compile.loadEnum_eq hloads c, fun i name hi hlast => ?_, fun name hname => ?_⟩
  · refine ⟨_, get?_enter hi hlast _, ?_⟩
    rw [counter_enter fun e he => hloads e (List.mem_of_mem_take he)]
    exact toInt_counter (hfits i name hi)
  · exact get?_enter_of_not_mem hname _

/-- An enumeration with a comment, a start, and a name that is listed twice. -/
def colours : String :=
  "; colours\nRED, GREEN // no BLUE\r\n\n # 10\nBLUE\tRED,,#1\n"

theorem entries_colours : entries colours =
    [.name "RED", .name "GREEN", .start ['1', '0'], .name "BLUE", .name "RED", .name "#1"] := by
  decide

/-- In a fresh compiler the second entry of a name counts, and reserved words stay. -/
theorem colours_numbered :
    ∃ t, Compile.loadEnum "colours" colours (.ofConfig {}) =
        .ok () { Compiler.ofConfig {} with file := "colours", symbols := t } ∧
      (∃ n, t.get? "GREEN" = some (.constant (.number n)) ∧ n.toInt = 1) ∧
      (∃ n, t.get? "RED" = some (.constant (.number n)) ∧ n.toInt = 11) ∧
      (∃ n, t.get? "#1" = some (.constant (.number n)) ∧ n.toInt = 12) ∧
      t.get? "while" = some (.command .whileDo) := by
  have hstarts : ∀ word, .start word ∈ entries colours → (Text.readInt64? word).isSome := by
    rw [entries_colours]
    intro word hword
    obtain rfl : word = ['1', '0'] := by simpa using hword
    decide
  have hnames : ∀ name, .name name ∈ entries colours → Symbols.isReserved name = false := by
    rw [entries_colours]
    intro name hname
    have hfour : name ∈ ["RED", "GREEN", "BLUE", "#1"] := by
      simp only [List.mem_cons, Entry.name.injEq, reduceCtorEq, List.not_mem_nil] at hname ⊢
      tauto
    clear hname
    revert name
    decide +kernel
  have hfits : ∀ i name, (entries colours)[i]? = some (.name name) →
      numberBehind ((entries colours).take i) < Int64.maxValue.toInt := by
    rw [entries_colours]
    intro i name hi
    have hlt : i < 6 := (List.getElem?_eq_some_iff.1 hi).1
    clear hi
    revert i
    decide
  obtain ⟨t, hload, hnumber, hother⟩ :=
    names_numbered "colours" colours (.ofConfig {}) hstarts hnames hfits
  rw [entries_colours] at hnumber hother
  refine ⟨t, hload, hnumber 1 "GREEN" rfl (by decide), hnumber 4 "RED" rfl (by decide),
    hnumber 5 "#1" rfl (by decide), ?_⟩
  rw [hother "while" (by decide)]
  cbv

end Enumeration

end ScriptMachine
