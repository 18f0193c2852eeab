import Flowchart.Journal
import Flowchart.Proofs.Canonical
import Flowchart.Proofs.Safety
import Std.Data.String.ToNat

/-!
# What the text of a state says

A snapshot on one line is read from left to right. A number ends where its digits end, and an entry
of a list ends where a comma or the closing bracket follows. Only the names of variables are written
as they are, and may contain anything. If they are known, the rest of the line can still be taken
apart: two snapshots that list the same names have the same text only if they are the same. All
states that a well formed program passes through list the names that it declares.

## Main definitions

* `Text.TellsApart`: two values can be told apart by what is written for them, whatever follows it.
* `Snapshot.ShownBy`: the lines of traces and journals that show a state.

## Main results

* `Snapshot.text_eq_iff`: snapshots with the same names.
* `Snapshot.text_identifies`: the states of a program, and the lines that show them.
-/

namespace Flowchart

/-- A snapshot whose names look like other parts of its text. -/
def Demo.misleading (v : Value) : Snapshot where
  counters := #[(⟨1⟩, some ⟨4⟩)]
  store := #[("a=1, b", 2), ("\x7d input=[", v)]
  input := [-5]
  output := [9]
  depth := 3

namespace Text

variable {α β : Type} {write : α → String} {a b : α}

/-! ### Taking a text apart -/

/-- The rest of a text does not go on with a digit, so a number may stand in front of it. -/
def Clear (rest : List Char) : Prop :=
  ∀ c ∈ rest.head?, c.isDigit = false

/-- What is written for the two values tells them apart wherever it stands in a text. If no digit
follows, the text determines the value and where the rest begins. -/
def TellsApart (write : α → String) (a b : α) : Prop :=
  ∀ rest rest' : List Char, Clear rest → Clear rest' →
    (write a).toList ++ rest = (write b).toList ++ rest' → a = b ∧ rest = rest'

/-- Whether the text can stand after a number and at the end of a list: it begins with a character
that is neither a digit nor a comma. -/
def closes (close : String) : Bool :=
  close.toList.head?.any fun c => !c.isDigit && c != ','

theorem exists_head?_of_closes {close : String} (h : closes close = true) :
    ∃ c, close.toList.head? = some c ∧ c.isDigit = false ∧ c ≠ ',' := by
  rw [closes, Option.any_eq_true] at h
  obtain ⟨c, hc, hkind⟩ := h
  rw [Bool.and_eq_true, Bool.not_eq_true', bne_iff_ne] at hkind
  exact ⟨c, hc, hkind⟩

theorem clear_of_closes {close : String} (h : closes close = true) (rest : List Char) :
    Clear (close.toList ++ rest) := by
  obtain ⟨c, hc, hdigit, -⟩ := exists_head?_of_closes h
  intro d hd
  rw [List.head?_append, hc] at hd
  exact Option.some.inj hd ▸ hdigit

theorem TellsApart.before {close : String} {rest rest' : List Char} (hab : TellsApart write a b)
    (hclose : closes close = true)
    (h : (write a).toList ++ (close.toList ++ rest) =
      (write b).toList ++ (close.toList ++ rest')) : a = b ∧ rest = rest' := by
  obtain ⟨hsame, hrests⟩ := hab _ _ (clear_of_closes hclose rest) (clear_of_closes hclose rest') h
  exact ⟨hsame, List.append_cancel_left hrests⟩

theorem takeWhile_append_of_head? {p : Char → Bool} {l rest : List Char} (hl : ∀ c ∈ l, p c = true)
    (hrest : ∀ c ∈ rest.head?, p c = false) : (l ++ rest).takeWhile p = l := by
  rw [List.takeWhile_append_of_pos hl]
  cases rest with
  | nil => simp
  | cons c rest => simp [hrest c rfl]

/-- A text is cut in one way only into characters of a kind and a rest that begins with one of
another kind. -/
theorem cut_unique (p : Char → Bool) {l l' rest rest' : List Char} (hl : ∀ c ∈ l, p c = true)
    (hl' : ∀ c ∈ l', p c = true) (hrest : ∀ c ∈ rest.head?, p c = false)
    (hrest' : ∀ c ∈ rest'.head?, p c = false) (h : l ++ rest = l' ++ rest') :
    l = l' ∧ rest = rest' := by
  have hcut : l = l' := by
    rw [← takeWhile_append_of_head? hl hrest, h, takeWhile_append_of_head? hl' hrest']
  subst hcut
  exact ⟨rfl, List.append_cancel_left h⟩

/-! ### Numbers -/

theorem isDigit_of_mem_repr {n : Nat} {c : Char} (hc : c ∈ n.repr.toList) : c.isDigit = true := by
  rw [Nat.toList_repr] at hc
  exact Nat.isDigit_of_mem_toDigits (by omega) (by omega) hc

theorem exists_head?_repr (n : Nat) : ∃ c, n.repr.toList.head? = some c ∧ c.isDigit = true := by
  cases hdigits : n.repr.toList with
  | nil =>
    rw [Nat.toList_repr] at hdigits
    exact absurd hdigits Nat.toDigits_ne_nil
  | cons c digits => exact ⟨c, rfl, isDigit_of_mem_repr (n := n) (by simp [hdigits])⟩

theorem tellsApart_repr (m n : Nat) : TellsApart Nat.repr m n := by
  intro rest rest' hrest hrest' h
  obtain ⟨hdigits, hsame⟩ := cut_unique Char.isDigit (fun _ => isDigit_of_mem_repr)
    (fun _ => isDigit_of_mem_repr) hrest hrest' h
  exact ⟨Nat.repr_injective (String.toList_inj.1 hdigits), hsame⟩

theorem TellsApart.comp {f : β → α} (hf : Function.Injective f) {x y : β}
    (h : TellsApart write (f x) (f y)) : TellsApart (fun z => write (f z)) x y := by
  intro rest rest' hrest hrest' heq
  obtain ⟨hsame, hrests⟩ := h rest rest' hrest hrest' heq
  exact ⟨hf hsame, hrests⟩

theorem TellsApart.after (lead : String) (h : TellsApart write a b) :
    TellsApart (fun x => lead ++ write x) a b := by
  intro rest rest' hrest hrest' heq
  simp only [String.toList_append, List.append_assoc, List.append_cancel_left_eq] at heq
  exact h rest rest' hrest hrest' heq

/-- Of two numbers of different signs one begins with a sign and the other with a digit. -/
theorem repr_append_ne_negSucc (m n : Nat) (rest rest' : List Char) :
    m.repr.toList ++ rest ≠ (Int.negSucc n).repr.toList ++ rest' := by
  intro h
  obtain ⟨c, hhead, hdigit⟩ := exists_head?_repr m
  have hsign := congrArg List.head? h
  simp only [List.head?_append, hhead, Int.repr, String.toList_append] at hsign
  obtain rfl : c = '-' := Option.some.inj hsign
  exact absurd hdigit (by decide)

theorem tellsApart_int (i j : Int) : TellsApart Int.repr i j := by
  intro rest rest' hrest hrest' h
  cases i with
  | ofNat m =>
    cases j with
    | ofNat n =>
      obtain ⟨rfl, hsame⟩ := tellsApart_repr m n rest rest' hrest hrest' h
      exact ⟨rfl, hsame⟩
    | negSucc n => exact absurd h (repr_append_ne_negSucc m n rest rest')
  | negSucc m =>
    cases j with
    | ofNat n => exact absurd h.symm (repr_append_ne_negSucc n m rest' rest)
    | negSucc n =>
      obtain ⟨hsucc, hsame⟩ :=
        (tellsApart_repr (m + 1) (n + 1)).after "-" rest rest' hrest hrest' h
      exact ⟨congrArg Int.negSucc (Nat.succ.inj hsucc), hsame⟩

/-! ### Lists -/

/-- What is written after the first item of a list: the others, each with a comma before it. -/
def continuation (items : List String) : List Char :=
  items.flatMap fun item => ", ".toList ++ item.toList

theorem toList_commaSeparated_cons (item : String) (items : List String) :
    (commaSeparated (item :: items)).toList = item.toList ++ continuation items := by
  rw [commaSeparated]
  induction items generalizing item with
  | nil => simp [continuation]
  | cons next items ih =>
    rw [String.intercalate_cons_cons, String.toList_append, String.toList_append, ih]
    simp [continuation]

section Closed

variable {xs ys : List α} {close : String} {rest rest' : List Char}

theorem clear_continuation (hclose : closes close = true) (items : List String)
    (rest : List Char) : Clear (continuation items ++ (close.toList ++ rest)) := by
  cases items with
  | nil => exact clear_of_closes hclose rest
  | cons item items =>
    intro c hc
    obtain rfl : ',' = c := by simpa [continuation] using hc
    decide

theorem TellsApart.continued {items items' : List String} (hab : TellsApart write a b)
    (hclose : closes close = true)
    (h : (write a).toList ++ (continuation items ++ (close.toList ++ rest)) =
      (write b).toList ++ (continuation items' ++ (close.toList ++ rest'))) :
    a = b ∧ continuation items ++ (close.toList ++ rest) =
      continuation items' ++ (close.toList ++ rest') :=
  hab _ _ (clear_continuation hclose items rest) (clear_continuation hclose items' rest') h

theorem close_ne_continuation (hclose : closes close = true) (item : String) (items : List String) :
    close.toList ++ rest ≠ continuation (item :: items) ++ (close.toList ++ rest') := by
  obtain ⟨c, hc, -, hcomma⟩ := exists_head?_of_closes hclose
  intro h
  have hhead := congrArg List.head? h
  rw [List.head?_append, hc] at hhead
  exact hcomma (Option.some.inj hhead)

/-- Lists whose entries are told apart pair by pair are told apart after their first entries. -/
theorem continuation_unique (hclose : closes close = true)
    (hpairs : ∀ pair ∈ xs.zip ys, TellsApart write pair.1 pair.2)
    (h : continuation (xs.map write) ++ (close.toList ++ rest) =
      continuation (ys.map write) ++ (close.toList ++ rest')) : xs = ys ∧ rest = rest' := by
  induction xs generalizing ys with
  | nil =>
    cases ys with
    | nil => exact ⟨rfl, List.append_cancel_left h⟩
    | cons y ys => exact absurd h (close_ne_continuation hclose _ _)
  | cons x xs ih =>
    cases ys with
    | nil => exact absurd h.symm (close_ne_continuation hclose _ _)
    | cons y ys =>
      obtain ⟨hfirst : TellsApart write x y, hothers⟩ := List.forall_mem_cons.1 hpairs
      simp only [continuation, List.map_cons, List.flatMap_cons, List.append_assoc,
        List.append_cancel_left_eq] at h
      obtain ⟨rfl, hmore⟩ := hfirst.continued hclose h
      obtain ⟨rfl, hrest⟩ := ih hothers hmore
      exact ⟨rfl, hrest⟩

theorem commaSeparated_unique (hclose : closes close = true) (hempty : xs = [] ↔ ys = [])
    (hpairs : ∀ pair ∈ xs.zip ys, TellsApart write pair.1 pair.2)
    (h : (commaSeparated (xs.map write)).toList ++ (close.toList ++ rest) =
      (commaSeparated (ys.map write)).toList ++ (close.toList ++ rest')) :
    xs = ys ∧ rest = rest' := by
  cases xs with
  | nil =>
    obtain rfl := hempty.1 rfl
    exact ⟨rfl, List.append_cancel_left (List.append_cancel_left h)⟩
  | cons x xs =>
    cases ys with
    | nil => cases hempty.2 rfl
    | cons y ys =>
      obtain ⟨hfirst : TellsApart write x y, hothers⟩ := List.forall_mem_cons.1 hpairs
      simp only [List.map_cons, toList_commaSeparated_cons, List.append_assoc] at h
      obtain ⟨rfl, hmore⟩ := hfirst.continued hclose h
      obtain ⟨rfl, hrest⟩ := continuation_unique hclose hothers hmore
      exact ⟨rfl, hrest⟩

/-- What is written for a value begins with a character with which `close` does not begin. -/
def Opens (write : α → String) (close : String) (a : α) : Prop :=
  ∃ c, (write a).toList.head? = some c ∧ close.toList.head? ≠ some c

theorem opens_repr (n : Nat) : Opens Nat.repr "]" n := by
  obtain ⟨c, hc, hdigit⟩ := exists_head?_repr n
  refine ⟨c, hc, ?_⟩
  rintro ⟨rfl⟩
  exact absurd hdigit (by decide)

theorem opens_int (i : Int) : Opens Int.repr "]" i := by
  cases i with
  | ofNat n => exact opens_repr n
  | negSucc n => exact ⟨'-', by simp [Int.repr], by decide⟩

theorem eq_nil_of_commaSeparated (hclose : closes close = true) (hopens : ∀ a, Opens write close a)
    (h : (commaSeparated (xs.map write)).toList ++ (close.toList ++ rest) =
      (commaSeparated (ys.map write)).toList ++ (close.toList ++ rest')) (hxs : xs = []) :
    ys = [] := by
  cases ys with
  | nil => rfl
  | cons y ys =>
    obtain ⟨c, hc, hne⟩ := hopens y
    obtain ⟨d, hd, -⟩ := exists_head?_of_closes hclose
    have hhead := congrArg List.head? h
    rw [hxs, List.map_cons, toList_commaSeparated_cons] at hhead
    simp only [List.head?_append, hc, hd] at hhead
    exact absurd (hd.trans hhead) hne

/-- Lists are told apart if any two entries are, and no entry begins like the closing text, so that
an empty list is seen to be empty. -/
theorem commaSeparated_unique_of_opens (hclose : closes close = true)
    (hopens : ∀ a, Opens write close a) (hall : ∀ a b, TellsApart write a b)
    (h : (commaSeparated (xs.map write)).toList ++ (close.toList ++ rest) =
      (commaSeparated (ys.map write)).toList ++ (close.toList ++ rest')) :
    xs = ys ∧ rest = rest' := by
  have hempty : xs = [] ↔ ys = [] :=
    ⟨eq_nil_of_commaSeparated hclose hopens h, eq_nil_of_commaSeparated hclose hopens h.symm⟩
  exact commaSeparated_unique hclose hempty (fun pair _ => hall pair.1 pair.2) h

theorem tellsApart_bracketed (hopens : ∀ a, Opens write "]" a)
    (hall : ∀ a b, TellsApart write a b) (xs ys : List α) :
    TellsApart (fun l => bracketed (l.map write)) xs ys := by
  intro rest rest' _ _ h
  simp only [bracketed, String.toList_append, List.append_assoc,
    List.append_cancel_left_eq] at h
  exact commaSeparated_unique_of_opens (by decide) hopens hall h

end Closed

end Text

open Text

/-! ### Numbers of threads and blocks, and values -/

theorem tellsApart_threadId (t u : ThreadId) : TellsApart ThreadId.text t u := by
  have hval : Function.Injective fun t : ThreadId => t.val.toNat := by
    rintro ⟨t⟩ ⟨u⟩ h
    exact congrArg ThreadId.mk (UInt32.toNat_inj.1 h)
  exact ((tellsApart_repr _ _).comp hval).after "T"

theorem tellsApart_blockId (i j : BlockId) : TellsApart BlockId.text i j := by
  have hval : Function.Injective fun i : BlockId => i.val.toNat := by
    rintro ⟨i⟩ ⟨j⟩ h
    exact congrArg BlockId.mk (UInt32.toNat_inj.1 h)
  exact ((tellsApart_repr _ _).comp hval).after "B"

theorem tellsApart_value (v w : Value) : TellsApart Value.text v w :=
  (tellsApart_repr _ _).comp fun _ _ => UInt32.toNat_inj.1

/-! ### Snapshots -/

namespace Snapshot

variable {g g' : Snapshot}

theorem toList_text (g : Snapshot) : g.text.toList =
    "depth=".toList ++ (g.depth.repr.toList ++ (" pcs=\x7b".toList ++
      ((Text.commaSeparated (g.counters.toList.map counterText)).toList ++
      ("\x7d vars=\x7b".toList ++
        ((Text.commaSeparated (g.store.toList.map variableText)).toList ++
      ("\x7d input=".toList ++ ((inputText g.input).toList ++
      (" output=".toList ++ (outputText g.output).toList)))))))) := by
  -- The equation by which `rw` and `simp` would unfold the definition takes seconds to derive.
  delta text
  simp only [String.toList_append, List.append_assoc]

theorem tellsApart_place (c d : Option BlockId) :
    TellsApart (fun counter => (counter.map BlockId.text).getD "done") c d := by
  intro rest rest' hrest hrest' h
  -- The number of a block begins with a capital `B`, and the word for the end does not.
  cases c with
  | none =>
    cases d with
    | none => exact ⟨rfl, List.append_cancel_left h⟩
    | some j => simp [BlockId.text] at h
  | some i =>
    cases d with
    | none => simp [BlockId.text] at h
    | some j =>
      obtain ⟨rfl, hsame⟩ := tellsApart_blockId i j rest rest' hrest hrest' h
      exact ⟨rfl, hsame⟩

theorem tellsApart_counterText (x y : ThreadId × Option BlockId) :
    TellsApart counterText x y := by
  intro rest rest' hrest hrest' h
  simp only [counterText, String.toList_append, List.append_assoc] at h
  obtain ⟨hthread, h⟩ := (tellsApart_threadId x.1 y.1).before (by decide) h
  obtain ⟨hplace, hsame⟩ := tellsApart_place x.2 y.2 rest rest' hrest hrest' h
  exact ⟨Prod.ext hthread hplace, hsame⟩

/-- Variables of one name are told apart by their values, whatever the name is. -/
theorem tellsApart_variableText {x y : String × Value} (hname : x.1 = y.1) :
    TellsApart variableText x y := by
  intro rest rest' hrest hrest' h
  simp only [variableText, String.toList_append, List.append_assoc, hname,
    List.append_cancel_left_eq] at h
  obtain ⟨hvalue, hsame⟩ := tellsApart_value x.2 y.2 rest rest' hrest hrest' h
  exact ⟨Prod.ext hname hvalue, hsame⟩

theorem tellsApart_inputText (input input' : List Int64) :
    TellsApart inputText input input' := by
  refine tellsApart_bracketed ?_ ?_ input input'
  · intro i
    exact opens_int i.toInt
  · intro i j
    exact (tellsApart_int _ _).comp fun _ _ => Int64.toInt_inj.1

theorem tellsApart_outputText (output output' : List Value) :
    TellsApart outputText output output' := by
  refine tellsApart_bracketed ?_ tellsApart_value output output'
  intro v
  exact opens_repr v.toNat

theorem fst_eq_of_mem_zip {xs ys : List (String × Value)}
    (h : xs.map Prod.fst = ys.map Prod.fst) {pair : (String × Value) × (String × Value)}
    (hpair : pair ∈ xs.zip ys) : pair.1.1 = pair.2.1 := by
  obtain ⟨i, hi⟩ := List.mem_iff_getElem?.1 hpair
  obtain ⟨hx, hy⟩ := List.getElem?_zip_eq_some.1 hi
  have hname := congrArg (·[i]?) h
  simpa [hx, hy] using hname

/-- Snapshots that list the same names in the same order have the same text only if they are the
same. -/
theorem text_eq_iff (hnames : g.store.toList.map Prod.fst = g'.store.toList.map Prod.fst) :
    g.text = g'.text ↔ g = g' := by
  refine ⟨?_, congrArg text⟩
  intro h
  have hempty : g.store.toList = [] ↔ g'.store.toList = [] := by
    rw [← List.map_eq_nil_iff (f := Prod.fst), hnames, List.map_eq_nil_iff]
  rw [← String.toList_inj, toList_text, toList_text] at h
  obtain ⟨hdepth, h⟩ := (tellsApart_repr g.depth g'.depth).before (by decide)
    (List.append_cancel_left h)
  obtain ⟨hcounters, h⟩ := commaSeparated_unique_of_opens (by decide)
    (fun x => ⟨'T', by simp [counterText, ThreadId.text], by decide⟩) tellsApart_counterText h
  obtain ⟨hstore, h⟩ := commaSeparated_unique (by decide) hempty
    (fun pair hpair => tellsApart_variableText (fst_eq_of_mem_zip hnames hpair)) h
  obtain ⟨hinput, h⟩ := (tellsApart_inputText g.input g'.input).before (by decide) h
  obtain ⟨houtput, -⟩ := tellsApart_outputText g.output g'.output [] [] (by simp [Clear])
    (by simp [Clear]) (congrArg (· ++ []) h)
  cases g
  cases g'
  rw [mk.injEq]
  exact ⟨Array.toList_inj.1 hcounters, Array.toList_inj.1 hstore, hinput, houtput, hdepth⟩

/-! ### Lines that show a state -/

theorem getElem?_lines {c : Counterexample} {i : Nat} {turn : Turn} (h : c.trace[i]? = some turn) :
    c.lines[i + 1]? = some ("  " ++ Counterexample.ordinal (i + 1) ++ ". " ++ turn.text) := by
  have hi : i < (c.trace.mapIdx fun i turn =>
      "  " ++ Counterexample.ordinal (i + 1) ++ ". " ++ turn.text).length := by
    rw [List.length_mapIdx]
    exact (List.getElem?_eq_some_iff.1 h).1
  rw [Counterexample.lines, List.cons_append, List.getElem?_cons_succ,
    List.getElem?_append_left hi, List.getElem?_mapIdx, h]
  rfl

theorem getLast?_lines (c : Counterexample) :
    c.lines.getLast? = some ("  final: " ++ c.state.text) := by
  rw [Counterexample.lines, List.getLast?_concat]

/-- The line shows the state: it is a numbered turn of a trace, the last line of a trace, or the
entry of a journal for a state that is examined or has a mismatch. A line here is one such entry,
which takes up several lines on the page if a variable has a line break in its name. -/
inductive ShownBy (g : Snapshot) : String → Prop
  | turn {c : Counterexample} {i : Nat} {t : ThreadId} {line : String}
      (listed : c.trace[i]? = some ⟨t, g⟩) (written : c.lines[i + 1]? = some line) :
      ShownBy g line
  | last {c : Counterexample} {line : String} (reported : c.state = g)
      (written : c.lines.getLast? = some line) : ShownBy g line
  | taken : ShownBy g (Event.stateTaken g).message
  | mismatch (m : Mismatch) : ShownBy g (Event.mismatchFound m g).message

theorem eq_not_mem_toDigits (n : Nat) : '=' ∉ Nat.toDigits 10 n := by
  intro h
  rw [← Nat.toList_repr] at h
  exact absurd (isDigit_of_mem_repr h) (by decide)

theorem eq_not_mem_turn (i : Nat) (t : ThreadId) :
    '=' ∉ ("  " ++ Counterexample.ordinal i ++ ". " ++ t.text ++ " -> ").toList := by
  simp [Counterexample.ordinal, ThreadId.text, eq_not_mem_toDigits]

/-- A line that shows a state ends with the text of the state, and what stands before it has no
equals sign. -/
theorem ShownBy.exists_lead {line : String} (h : g.ShownBy line) :
    ∃ lead : String, '=' ∉ lead.toList ∧ line = lead ++ g.text := by
  cases h with
  | @turn c i t _ hlisted hwritten =>
    rw [getElem?_lines hlisted, Option.some.injEq] at hwritten
    refine ⟨_, eq_not_mem_turn (i + 1) t, ?_⟩
    simp only [← hwritten, Turn.text, String.append_assoc]
  | last hreported hwritten =>
    rw [getLast?_lines, Option.some.injEq, hreported] at hwritten
    exact ⟨"  final: ", by decide, hwritten.symm⟩
  | taken => exact ⟨"dequeue ", by decide, rfl⟩
  | mismatch m => exact ⟨"counterexample (" ++ m.label ++ "): ", by cases m <;> decide, rfl⟩

theorem exists_toList_text (g : Snapshot) :
    ∃ body, g.text.toList = "depth".toList ++ '=' :: body := by
  rw [toList_text]
  exact ⟨_, rfl⟩

/-- The first equals sign of a line is the one after the word for the depth, so the text of the
state can be found in the line. -/
theorem text_eq_of_lead {lead lead' : String} (hlead : '=' ∉ lead.toList)
    (hlead' : '=' ∉ lead'.toList) (h : lead ++ g.text = lead' ++ g'.text) : g.text = g'.text := by
  obtain ⟨body, hbody⟩ := exists_toList_text g
  obtain ⟨body', hbody'⟩ := exists_toList_text g'
  have hfree {lead : String} (hlead : '=' ∉ lead.toList) :
      ∀ c ∈ lead.toList ++ "depth".toList, (c != '=') = true := by
    intro c hc
    rw [bne_iff_ne]
    rintro rfl
    simp [hlead] at hc
  have hline := congrArg String.toList h
  rw [String.toList_append, String.toList_append, hbody, hbody', ← List.append_assoc,
    ← List.append_assoc] at hline
  obtain ⟨-, hrest⟩ := cut_unique (· != '=') (hfree hlead) (hfree hlead') (by simp) (by simp) hline
  rw [← String.toList_inj, hbody, hbody', hrest]

/-- States that fit one program list the same names in the same order. -/
theorem map_fst_store_eq {p : Program} {s s' : State} (hs : s.Fits p) (hs' : s'.Fits p) :
    s.snapshot.store.toList.map Prod.fst = s'.snapshot.store.toList.map Prod.fst := by
  have hkeys : s.store.keys = s'.store.keys :=
    keys_eq_of_mem_iff fun name => (hs.name name).trans (hs'.name name).symm
  simpa [State.snapshot] using hkeys

theorem eq_of_text_eq {q : Problem} {s s' : State} (hq : q.program.findings = [])
    (hs : q.Reachable s) (hs' : q.Reachable s') (h : s.snapshot.text = s'.snapshot.text) :
    s = s' := by
  have hp := Program.sound_of_findings hq
  obtain ⟨w, hw⟩ := Problem.reachable_iff_leads.1 hs
  obtain ⟨w', hw'⟩ := Problem.reachable_iff_leads.1 hs'
  have hnames := map_fst_store_eq (.of_leads hp hw) (.of_leads hp hw')
  exact State.snapshot_injective ((text_eq_iff hnames).1 h)

/-- **The text of a state identifies it.** Two snapshots that list the same names in the same order,
whatever the names are and whether or not the entries are sorted, have the same text if and only if
they are the same. So two different states that a program without findings reaches on an input have
different texts, and no line of a trace or a journal shows both. -/
theorem text_identifies :
    (∀ g g' : Snapshot, g.store.toList.map Prod.fst = g'.store.toList.map Prod.fst →
      (g.text = g'.text ↔ g = g')) ∧
    ∀ q : Problem, q.program.findings = [] → ∀ s s', q.Reachable s → q.Reachable s' → s ≠ s' →
      s.snapshot.text ≠ s'.snapshot.text ∧
      ∀ line, s.snapshot.ShownBy line → ¬ s'.snapshot.ShownBy line := by
  refine ⟨fun g g' hnames => text_eq_iff hnames, ?_⟩
  intro q hq s s' hs hs' hne
  have htext : s.snapshot.text ≠ s'.snapshot.text := fun h => hne (eq_of_text_eq hq hs hs' h)
  refine ⟨htext, ?_⟩
  intro line hline hline'
  obtain ⟨lead, hlead, rfl⟩ := hline.exists_lead
  obtain ⟨lead', hlead', hsame⟩ := hline'.exists_lead
  exact htext (text_eq_of_lead hlead hlead' hsame)

/-- Without the names the text does not determine the variables. -/
example :
    text { (default : Snapshot) with store := #[("a", 1), ("b", 2)] } =
      text { (default : Snapshot) with store := #[("a=1, b", 2)] } := by
  decide +kernel

theorem text_of_misleading_names :
    (Demo.misleading 1).store.toList.map Prod.fst = (Demo.misleading 11).store.toList.map Prod.fst ∧
    (Demo.misleading 1).text ≠ (Demo.misleading 11).text ∧
    Demo.Scenario.race.posed.program.findings = [] ∧
    ∃ s, Demo.Scenario.race.posed.after? [⟨3⟩] = some s ∧
      ¬ s.snapshot.ShownBy
        (Event.stateTaken Demo.Scenario.race.posed.initial.snapshot).message := by
  obtain ⟨hraw, hreached⟩ := text_identifies
  have hnames : (Demo.misleading 1).store.toList.map Prod.fst =
      (Demo.misleading 11).store.toList.map Prod.fst := rfl
  have hfindings : Demo.Scenario.race.posed.program.findings = [] := by decide +kernel
  have hturn : (Demo.Scenario.race.posed.after? [⟨3⟩]).map (·.depth) = some 1 := by decide +kernel
  obtain ⟨s, hs, hdepth⟩ := Option.map_eq_some_iff.1 hturn
  have hne : Demo.Scenario.race.posed.initial ≠ s := by
    rintro rfl
    cases hdepth
  refine ⟨hnames, ?_, hfindings, s, hs, ?_⟩
  · rw [Ne, hraw _ _ hnames]
    decide
  · have hinitial := Problem.reachable_initial Demo.Scenario.race.posed
    exact (hreached _ hfindings _ s hinitial ⟨_, hs⟩ hne).2 _ .taken

end Snapshot

end Flowchart
