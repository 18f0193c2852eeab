import Flowchart.Demo.Scenario
import Flowchart.Program.Defect
import Flowchart.Proofs.Editing

/-!
# What the findings of a program say

What can be wrong with a program is said here condition by condition, without regard to how defects
are looked for. The findings are exactly the violated conditions. A condition on the program or on a
thread is reported once; those on a block as often as the block violates them, so that a name or a
target that it lists twice is reported twice.

## Main definitions

* `Program.Flaw`, `Thread.Flaw`, `Action.Flaw`: the conditions, each with the defect that reports
  it.
* `Program.WellFormed`: a program that violates none of them.
* `Site.NoLater`: the order of sites.

## Main results

* `Program.mem_findings_iff`: the findings are the flaws.
* `Program.filter_findings_thread`: the findings in a thread stand together.
* `Program.findings_exact`: acceptance, numbers and order of findings.
-/

namespace Flowchart

/-- A thread without blocks, and one with a single block that has several flaws. -/
def Demo.flawed : Program :=
  (Demo.Outline.program
    { name := "flawed"
      declared := ["y"]
      threads := [(⟨1⟩, []), (⟨2⟩, [⟨⟨0⟩, .assign "x" (.copy "x") ⟨9⟩⟩])] }).toOption.get
    (by decide +kernel)

/-! ### Conditions -/

/-- The program violates a condition on programs. -/
inductive Program.Flaw (p : Program) : Defect → Prop
  | threadCount (h : p.threadList = [] ∨ 100 < p.threadList.length) :
      Flaw p (.threadCount p.threadList.length)
  | variableCount (h : 100 < p.declared.length) : Flaw p (.variableCount p.declared.length)

/-- The blocks of the thread that are entries. -/
def Thread.starts (t : Thread) : List Block :=
  t.blocks.filter (·.action.isStart)

/-- The thread violates a condition on threads. An empty thread violates only one. -/
inductive Thread.Flaw (t : Thread) : Defect → Prop
  | emptyThread (h : t.blocks = []) : Flaw t .emptyThread
  | blockCount (h : 100 < t.blocks.length) : Flaw t .blockCount
  | startCount (filled : t.blocks ≠ []) (h : t.starts.length ≠ 1) :
      Flaw t (.startCount t.starts.length)
  | noFinish (filled : t.blocks ≠ []) (h : ∀ b ∈ t.blocks, b.action ≠ .finish) : Flaw t .noFinish

/-- The action, in a thread of a program, violates a condition on blocks. -/
inductive Action.Flaw (p : Program) (t : Thread) : Action → Defect → Prop
  | undeclared {a : Action} {name : String} (mem : name ∈ a.names) (h : name ∉ p.declared) :
      Flaw p t a (.undeclared name)
  | literal {target : String} {n : UInt64} {next : BlockId} (h : 2147483647 < n.toNat) :
      Flaw p t (.assign target (.literal n) next) (.constantRange n.toNat)
  | constant {c : Condition} {i j : BlockId} (h : 2147483647 < c.constant.toNat) :
      Flaw p t (.branch c i j) (.constantRange c.constant.toNat)
  | next {a : Action} {i : BlockId} (plain : ∀ c i j, a ≠ .branch c i j) (mem : i ∈ a.targets)
      (h : t.block? i = none) : Flaw p t a (.dangling .next i)
  | onTrue {c : Condition} {i j : BlockId} (h : t.block? i = none) :
      Flaw p t (.branch c i j) (.dangling .onTrue i)
  | onFalse {c : Condition} {i j : BlockId} (h : t.block? j = none) :
      Flaw p t (.branch c i j) (.dangling .onFalse j)

/-- The program has the flaw that the finding reports, at the site that it names. -/
inductive Program.Has (p : Program) : Finding → Prop
  | program {d : Defect} (flaw : p.Flaw d) : Has p ⟨⟨none, none⟩, d⟩
  | thread {t : Thread} {d : Defect} (mem : t ∈ p.threadList) (flaw : t.Flaw d) :
      Has p ⟨⟨some t.id, none⟩, d⟩
  | block {t : Thread} {b : Block} {d : Defect} (mem : t ∈ p.threadList) (block : b ∈ t.blocks)
      (flaw : b.action.Flaw p t d) : Has p ⟨⟨some t.id, some b.id⟩, d⟩

/-- The constant of the action has more than 31 bits. -/
def Action.Oversized : Action → Prop
  | assign _ (.literal n) _ => 2147483647 < n.toNat
  | branch c _ _ => 2147483647 < c.constant.toNat
  | _ => False

instance : DecidablePred Action.Oversized := fun a =>
  match a with
  | .assign _ (.literal n) _ => inferInstanceAs (Decidable (2147483647 < n.toNat))
  | .branch c _ _ => inferInstanceAs (Decidable (2147483647 < c.constant.toNat))
  | .assign _ (.copy _) _ => inferInstanceAs (Decidable False)
  | .start _ => inferInstanceAs (Decidable False)
  | .finish => inferInstanceAs (Decidable False)
  | .input .. => inferInstanceAs (Decidable False)
  | .print .. => inferInstanceAs (Decidable False)

theorem Action.any_constant?_iff (a : Action) :
    a.constant?.any (maxConstant < ·) = true ↔ a.Oversized := by
  cases a with
  | assign target operand next =>
    cases operand with
    | literal n => exact decide_eq_true_iff
    | copy source => simp [constant?, Oversized]
  | branch c i j => exact decide_eq_true_iff
  | _ => simp [constant?, Oversized]

/-- What is required of a thread. -/
structure Thread.WellFormed (p : Program) (t : Thread) : Prop where
  nonempty : t.blocks ≠ []
  block_count : t.blocks.length ≤ 100
  start : t.starts.length = 1
  finish : ∃ b ∈ t.blocks, b.action = .finish
  target : ∀ b ∈ t.blocks, ∀ i ∈ b.action.targets, ∃ c, t.block? i = some c
  declared : ∀ b ∈ t.blocks, ∀ name ∈ b.action.names, name ∈ p.declared
  constant : ∀ b ∈ t.blocks, ¬ b.action.Oversized

/-- What is required of a program. -/
structure Program.WellFormed (p : Program) : Prop where
  thread_count : 1 ≤ p.threadList.length ∧ p.threadList.length ≤ 100
  variable_count : p.declared.length ≤ 100
  thread : ∀ t ∈ p.threadList, t.WellFormed p

/-- The program comes before its threads, a thread before its blocks, and threads and blocks come in
ascending order. -/
def Site.NoLater (a b : Site) : Prop :=
  a.thread < b.thread ∨ (a.thread = b.thread ∧ (a.block < b.block ∨ a.block = b.block))

/-! ### Findings are flaws -/

namespace Thread

variable {p : Program} {t : Thread} {a : Action} {d : Defect}

theorem size_eq_length (t : Thread) : t.size = t.blocks.length := by
  rw [size, blocks, List.length_map, Std.ExtTreeMap.length_toList]

theorem startCount_eq_length (t : Thread) : t.startCount = t.starts.length :=
  List.countP_eq_length_filter

theorem not_mem_nodes_iff {i : BlockId} : i ∉ t.nodes ↔ t.block? i = none := by
  rw [block?, Option.map_eq_none_iff, Std.ExtTreeMap.mem_iff_isSome_getElem?,
    Option.not_isSome_iff_eq_none]

theorem isFinish_iff {a : Action} : a.isFinish = true ↔ a = .finish := by
  cases a <;> simp [Action.isFinish]

theorem ownDefects_of_nil (h : t.blocks = []) : t.ownDefects = [.emptyThread] := by
  rw [ownDefects, size_eq_length, h]
  rfl

theorem ownDefects_of_ne_nil (h : t.blocks ≠ []) :
    t.ownDefects =
      (if t.blocks.length ≤ 100 then [] else [.blockCount]) ++
      (if t.starts.length = 1 then [] else [.startCount t.starts.length]) ++
      (if ∃ b ∈ t.blocks, b.action = .finish then [] else [.noFinish]) := by
  have hsize : t.blocks.length ≠ 0 := by
    rwa [ne_eq, List.length_eq_zero_iff]
  simp only [ownDefects, size_eq_length, if_neg hsize, startCount_eq_length, List.any_eq_true,
    isFinish_iff, maxBlocks]

theorem mem_ownDefects_iff : d ∈ t.ownDefects ↔ t.Flaw d := by
  by_cases hnil : t.blocks = []
  · rw [ownDefects_of_nil hnil, List.mem_singleton]
    constructor
    · rintro rfl
      exact .emptyThread hnil
    · rintro (_ | h | ⟨hne, -⟩ | ⟨hne, -⟩)
      · rfl
      · simp [hnil] at h
      · exact absurd hnil hne
      · exact absurd hnil hne
  · simp only [ownDefects_of_ne_nil hnil, List.mem_append, List.mem_ite_nil_left,
      List.mem_singleton]
    constructor
    · rintro ((⟨hcount, rfl⟩ | ⟨hstart, rfl⟩) | ⟨hfinish, rfl⟩)
      · exact .blockCount (by omega)
      · exact .startCount hnil hstart
      · exact .noFinish hnil fun b hb heq => hfinish ⟨b, hb, heq⟩
    · rintro (hempty | hcount | ⟨-, hstart⟩ | ⟨-, hfinish⟩)
      · exact absurd hempty hnil
      · exact .inl (.inl ⟨by omega, rfl⟩)
      · exact .inl (.inr ⟨hstart, rfl⟩)
      · exact .inr ⟨fun ⟨b, hb, heq⟩ => hfinish b hb heq, rfl⟩

theorem mem_actionDefects_iff : d ∈ t.actionDefects p a ↔ a.Flaw p t d := by
  simp only [actionDefects, List.mem_append, List.mem_map, List.mem_filter, decide_eq_true_eq,
    not_mem_nodes_iff, Option.mem_toList]
  constructor
  · rintro ((⟨name, ⟨hmem, hno⟩, rfl⟩ | ⟨n, ⟨hn, hbig⟩, rfl⟩) | ⟨⟨exit, i⟩, ⟨hexit, hno⟩, rfl⟩)
    · exact .undeclared hmem (by simpa [Program.declares] using hno)
    · cases a with
      | assign target operand next =>
        cases operand with
        | literal m =>
          cases hn
          exact .literal hbig
        | copy source => cases hn
      | branch c j k =>
        cases hn
        exact .constant hbig
      | _ => cases hn
    · -- Only a branch tells its exits apart.
      cases a with
      | branch c j k =>
        simp only [Action.exits, List.mem_cons, Prod.mk.injEq, List.not_mem_nil, or_false] at hexit
        rcases hexit with ⟨rfl, rfl⟩ | ⟨rfl, rfl⟩
        · exact .onTrue hno
        · exact .onFalse hno
      | _ =>
        obtain ⟨j, hj, heq⟩ := List.mem_map.1 hexit
        cases heq
        exact .next (by simp) hj hno
  · intro h
    cases h with
    | undeclared mem h =>
      exact .inl (.inl ⟨_, ⟨mem, by simpa [Program.declares] using h⟩, rfl⟩)
    | literal h => exact .inl (.inr ⟨_, ⟨rfl, h⟩, rfl⟩)
    | constant h => exact .inl (.inr ⟨_, ⟨rfl, h⟩, rfl⟩)
    | @next _ i plain mem h =>
      refine .inr ⟨(.next, i), ⟨?_, h⟩, rfl⟩
      cases a with
      | branch c j k => exact absurd rfl (plain c j k)
      | _ => exact List.mem_map_of_mem mem
    | onTrue h => exact .inr ⟨(.onTrue, _), ⟨by simp [Action.exits], h⟩, rfl⟩
    | onFalse h => exact .inr ⟨(.onFalse, _), ⟨by simp [Action.exits], h⟩, rfl⟩

end Thread

namespace Program

variable {p : Program} {t : Thread} {b : Block} {d : Defect} {f : Finding}

theorem size_eq_length (p : Program) : p.size = p.threadList.length := by
  rw [size, threadList_eq_map_toList, List.length_map, Std.ExtTreeMap.length_toList]

theorem ownDefects_eq (p : Program) :
    p.ownDefects =
      (if 1 ≤ p.threadList.length ∧ p.threadList.length ≤ 100 then []
        else [.threadCount p.threadList.length]) ++
      (if p.declared.length ≤ 100 then [] else [.variableCount p.declared.length]) := by
  rw [ownDefects, size_eq_length]
  rfl

theorem mem_ownDefects_iff : d ∈ p.ownDefects ↔ p.Flaw d := by
  simp only [ownDefects_eq, List.mem_append, List.mem_ite_nil_left, List.mem_singleton]
  constructor
  · rintro (⟨hcount, rfl⟩ | ⟨hcount, rfl⟩)
    · exact .threadCount (by rw [← List.length_eq_zero_iff]; omega)
    · exact .variableCount (by omega)
  · rintro (hcount | hcount)
    · rw [← List.length_eq_zero_iff] at hcount
      exact .inl ⟨by omega, rfl⟩
    · exact .inr ⟨by omega, rfl⟩

/-- The findings are the flaws. -/
theorem mem_findings_iff : f ∈ p.findings ↔ p.Has f := by
  simp only [findings, Thread.findings, List.mem_append, List.mem_flatMap, List.mem_map,
    mem_ownDefects_iff, Thread.mem_ownDefects_iff, Thread.mem_actionDefects_iff]
  constructor
  · rintro (⟨d, hd, rfl⟩ | ⟨t, ht, ⟨d, hd, rfl⟩ | ⟨b, hb, d, hd, rfl⟩⟩)
    · exact .program hd
    · exact .thread ht hd
    · exact .block ht hb hd
  · intro h
    cases h with
    | program flaw => exact .inl ⟨_, flaw, rfl⟩
    | thread mem flaw => exact .inr ⟨_, mem, .inl ⟨_, flaw, rfl⟩⟩
    | block mem block flaw => exact .inr ⟨_, mem, .inr ⟨_, block, _, flaw, rfl⟩⟩

end Program

/-! ### Acceptance -/

theorem Action.forall_not_flaw_iff {p : Program} {t : Thread} {a : Action} :
    (∀ d, ¬ a.Flaw p t d) ↔ (∀ i ∈ a.targets, ∃ c, t.block? i = some c) ∧
      (∀ name ∈ a.names, name ∈ p.declared) ∧ ¬ a.Oversized := by
  constructor
  · intro h
    refine ⟨?_, ?_, ?_⟩
    · intro i hi
      rw [← Option.isSome_iff_exists, ← Option.ne_none_iff_isSome]
      intro hnone
      cases a with
      | branch c j k =>
        simp only [targets, List.mem_cons, List.not_mem_nil, or_false] at hi
        rcases hi with rfl | rfl
        · exact h _ (.onTrue hnone)
        · exact h _ (.onFalse hnone)
      | _ => exact h _ (.next (by simp) hi hnone)
    · intro name hname
      by_contra hno
      exact h _ (.undeclared hname hno)
    · intro hbig
      cases a with
      | assign target operand next =>
        cases operand with
        | literal n => exact h _ (.literal hbig)
        | copy source => exact hbig
      | branch c j k => exact h _ (.constant hbig)
      | _ => exact hbig
  · rintro ⟨htargets, hnames, hsmall⟩ d hd
    have hsome : ∀ i ∈ a.targets, t.block? i ≠ none := by
      intro i hi hnone
      obtain ⟨c, hc⟩ := htargets i hi
      simp [hnone] at hc
    cases hd with
    | undeclared hname hno => exact hno (hnames _ hname)
    | literal hbig => exact hsmall hbig
    | constant hbig => exact hsmall hbig
    | next _ hi hnone => exact hsome _ hi hnone
    | onTrue hnone => exact hsome _ (by simp [targets]) hnone
    | onFalse hnone => exact hsome _ (by simp [targets]) hnone

theorem Thread.forall_not_flaw_iff {t : Thread} :
    (∀ d, ¬ t.Flaw d) ↔ t.blocks ≠ [] ∧ t.blocks.length ≤ 100 ∧ t.starts.length = 1 ∧
      ∃ b ∈ t.blocks, b.action = .finish := by
  constructor
  · intro h
    have hne : t.blocks ≠ [] := fun hnil => h _ (.emptyThread hnil)
    refine ⟨hne, ?_, ?_, ?_⟩
    · by_contra hcount
      exact h _ (.blockCount (by omega))
    · by_contra hstart
      exact h _ (.startCount hne hstart)
    · by_contra hfinish
      push Not at hfinish
      exact h _ (.noFinish hne hfinish)
  · rintro ⟨hne, hcount, hstart, b, hb, hfinish⟩ d hd
    cases hd with
    | emptyThread hnil => exact hne hnil
    | blockCount hlt => omega
    | startCount _ hno => exact hno hstart
    | noFinish _ hno => exact hno b hb hfinish

namespace Program

variable {p : Program} {t : Thread} {b : Block} {d : Defect} {f : Finding}

theorem forall_not_flaw_iff : (∀ d, ¬ p.Flaw d) ↔
    (1 ≤ p.threadList.length ∧ p.threadList.length ≤ 100) ∧ p.declared.length ≤ 100 := by
  constructor
  · intro h
    refine ⟨?_, ?_⟩
    · by_contra hcount
      exact h _ (.threadCount (by rw [← List.length_eq_zero_iff]; omega))
    · by_contra hcount
      exact h _ (.variableCount (by omega))
  · rintro ⟨hthreads, hdeclared⟩ d hd
    cases hd with
    | threadCount hcount =>
      rw [← List.length_eq_zero_iff] at hcount
      omega
    | variableCount hcount => omega

theorem findings_eq_nil_iff : p.findings = [] ↔ p.WellFormed := by
  simp only [List.eq_nil_iff_forall_not_mem, mem_findings_iff]
  constructor
  · intro h
    obtain ⟨hthreads, hdeclared⟩ := forall_not_flaw_iff.1 fun d hd => h _ (.program hd)
    refine ⟨hthreads, hdeclared, ?_⟩
    intro t ht
    obtain ⟨hne, hcount, hstart, hfinish⟩ :=
      Thread.forall_not_flaw_iff.1 fun d hd => h _ (.thread ht hd)
    have hblock (b : Block) (hb : b ∈ t.blocks) :=
      Action.forall_not_flaw_iff.1 fun d hd => h _ (.block ht hb hd)
    exact ⟨hne, hcount, hstart, hfinish, fun b hb => (hblock b hb).1,
      fun b hb => (hblock b hb).2.1, fun b hb => (hblock b hb).2.2⟩
  · intro h f hf
    cases hf with
    | program flaw =>
      exact forall_not_flaw_iff.2 ⟨h.thread_count, h.variable_count⟩ _ flaw
    | thread ht flaw =>
      have hw := h.thread _ ht
      exact Thread.forall_not_flaw_iff.2 ⟨hw.nonempty, hw.block_count, hw.start, hw.finish⟩ _ flaw
    | block ht hb flaw =>
      have hw := h.thread _ ht
      exact Action.forall_not_flaw_iff.2 ⟨hw.target _ hb, hw.declared _ hb, hw.constant _ hb⟩ _ flaw

end Program

/-! ### Findings by site -/

/-- If one item of a list is known by a key, its part of a flattened list can be picked out. -/
theorem filter_flatMap_of_key {α β κ : Type} {key : α → κ} {l : List α} {f : α → List β}
    {P : β → Bool} {x : α} (hnodup : (l.map key).Nodup) (hx : x ∈ l)
    (hkey : ∀ y ∈ l, ∀ z ∈ f y, P z = true → key y = key x) :
    (l.flatMap f).filter P = (f x).filter P := by
  obtain ⟨before, after, rfl⟩ := List.append_of_mem hx
  rw [List.map_append, List.map_cons, List.nodup_middle, List.nodup_cons, List.mem_append] at hnodup
  -- No other item has the key, so nothing that comes from another item passes.
  have hothers : ∀ y ∈ before ++ after, (f y).filter P = [] := by
    intro y hy
    rw [List.filter_eq_nil_iff]
    intro z hz hP
    have hmem : y ∈ before ++ x :: after := by
      rw [List.mem_append] at hy ⊢
      exact hy.imp_right (List.mem_cons_of_mem x)
    have heq := hkey y hmem z hz hP
    rw [List.mem_append] at hy
    exact hnodup.1 (hy.imp (heq ▸ List.mem_map_of_mem ·) (heq ▸ List.mem_map_of_mem ·))
  have hbefore : before.flatMap (fun y => (f y).filter P) = [] :=
    List.flatMap_eq_nil_iff.2 fun y hy => hothers y (List.mem_append_left _ hy)
  have hafter : after.flatMap (fun y => (f y).filter P) = [] :=
    List.flatMap_eq_nil_iff.2 fun y hy => hothers y (List.mem_append_right _ hy)
  rw [List.filter_flatMap, List.flatMap_append, List.flatMap_cons, hbefore, hafter,
    List.nil_append, List.append_nil]

namespace Thread

variable {p : Program} {t : Thread} {b : Block} {f : Finding}

theorem site_thread_of_mem_findings (h : f ∈ t.findings p) : f.site.thread = some t.id := by
  simp only [findings, List.mem_append, List.mem_map, List.mem_flatMap] at h
  rcases h with ⟨d, -, rfl⟩ | ⟨b, -, d, -, rfl⟩
  · rfl
  · rfl

theorem filter_findings_own (p : Program) (t : Thread) :
    (t.findings p).filter (·.site.block = none) =
      t.ownDefects.map (⟨⟨some t.id, none⟩, ·⟩) := by
  simp [findings, List.filter_append, List.filter_map, List.filter_flatMap, Function.comp_def]

theorem filter_findings_block (p : Program) (hb : b ∈ t.blocks) :
    (t.findings p).filter (·.site.block = some b.id) =
      (t.actionDefects p b.action).map (⟨⟨some t.id, some b.id⟩, ·⟩) := by
  have hnodup : (t.blocks.map Block.id).Nodup := by
    refine t.pairwise_blocks.imp ?_
    rintro i j hlt rfl
    exact Std.Irrefl.irrefl i hlt
  have hown : (t.ownDefects.map fun d => (⟨⟨some t.id, none⟩, d⟩ : Finding)).filter
      (·.site.block = some b.id) = [] := by
    simp [List.filter_map, Function.comp_def]
  rw [findings, List.filter_append, hown, List.nil_append, filter_flatMap_of_key hnodup hb]
  · simp [List.filter_map, Function.comp_def]
  · intro c _ f hf hsite
    obtain ⟨d, -, rfl⟩ := List.mem_map.1 hf
    simpa using hsite

/-- The number of defects of an action. -/
theorem length_actionDefects (p : Program) (t : Thread) (a : Action) :
    (t.actionDefects p a).length =
      a.names.countP (· ∉ p.declared) + (if a.Oversized then 1 else 0) +
      a.targets.countP (fun i => t.block? i = none) := by
  have hnames : (a.names.filter (!p.declares ·)).length = a.names.countP (· ∉ p.declared) := by
    simp [List.countP_eq_length_filter, Program.declares]
  have hconstant : (a.constant?.toList.filter (maxConstant < ·)).length =
      if a.Oversized then 1 else 0 := by
    simp only [← a.any_constant?_iff]
    cases a.constant? with
    | none => rfl
    | some n => by_cases hn : maxConstant < n <;> simp [hn]
  have htargets : (a.exits.filter (·.2 ∉ t.nodes)).length =
      a.targets.countP (fun i => t.block? i = none) := by
    rw [← a.map_snd_exits, List.countP_map, List.countP_eq_length_filter]
    simp only [not_mem_nodes_iff, Function.comp_def]
  simp only [actionDefects, List.length_append, List.length_map, hnames, hconstant, htargets]

end Thread

namespace Program

variable {p : Program} {t : Thread} {b : Block} {f : Finding}

theorem filter_findings_own (p : Program) :
    p.findings.filter (·.site.thread = none) = p.ownDefects.map (⟨⟨none, none⟩, ·⟩) := by
  have hthreads :
      (p.threadList.flatMap (Thread.findings p)).filter (·.site.thread = none) = [] := by
    rw [List.filter_eq_nil_iff]
    intro f hf
    obtain ⟨t, -, ht⟩ := List.mem_flatMap.1 hf
    simp [Thread.site_thread_of_mem_findings ht]
  rw [findings, List.filter_append, hthreads, List.append_nil]
  simp [List.filter_map, Function.comp_def]

/-- The findings in a thread are those that name it. -/
theorem filter_findings_thread (ht : t ∈ p.threadList) :
    p.findings.filter (·.site.thread = some t.id) = t.findings p := by
  have hnodup : (p.threadList.map Thread.id).Nodup := by
    rw [p.map_id_threadList]
    exact Std.ExtTreeMap.nodup_keys
  have hown : (p.ownDefects.map fun d => (⟨⟨none, none⟩, d⟩ : Finding)).filter
      (·.site.thread = some t.id) = [] := by
    simp [List.filter_map, Function.comp_def]
  rw [findings, List.filter_append, hown, List.nil_append, filter_flatMap_of_key hnodup ht]
  · rw [List.filter_eq_self]
    intro f hf
    simp [Thread.site_thread_of_mem_findings hf]
  · intro u _ f hf hsite
    simpa [Thread.site_thread_of_mem_findings hf] using hsite

theorem countP_site_thread (ht : t ∈ p.threadList) (block : Option BlockId) :
    p.findings.countP (·.site = ⟨some t.id, block⟩) =
      ((t.findings p).filter (·.site.block = block)).length := by
  rw [← filter_findings_thread ht, List.filter_filter, List.countP_eq_length_filter]
  congr 2
  funext f
  obtain ⟨⟨thread, block'⟩, d⟩ := f
  simp [and_comm]

theorem countP_site_block (ht : t ∈ p.threadList) (hb : b ∈ t.blocks) :
    p.findings.countP (·.site = ⟨some t.id, some b.id⟩) =
      b.action.names.countP (· ∉ p.declared) + (if b.action.Oversized then 1 else 0) +
      b.action.targets.countP (fun i => t.block? i = none) := by
  rw [countP_site_thread ht, Thread.filter_findings_block p hb, List.length_map,
    Thread.length_actionDefects]

theorem countP_site_own (ht : t ∈ p.threadList) (hne : t.blocks ≠ []) :
    p.findings.countP (·.site = ⟨some t.id, none⟩) =
      (if t.blocks.length ≤ 100 then 0 else 1) + (if t.starts.length = 1 then 0 else 1) +
      (if ∃ b ∈ t.blocks, b.action = .finish then 0 else 1) := by
  rw [countP_site_thread ht, Thread.filter_findings_own, List.length_map,
    Thread.ownDefects_of_ne_nil hne]
  simp only [List.length_append, apply_ite List.length, List.length_nil, List.length_singleton]

theorem countP_site_program (p : Program) :
    p.findings.countP (·.site.thread = none) =
      (if 1 ≤ p.threadList.length ∧ p.threadList.length ≤ 100 then 0 else 1) +
      (if p.declared.length ≤ 100 then 0 else 1) := by
  rw [List.countP_eq_length_filter, filter_findings_own, List.length_map, ownDefects_eq]
  simp only [List.length_append, apply_ite List.length, List.length_nil, List.length_singleton]

theorem filter_findings_of_nil (ht : t ∈ p.threadList) (hnil : t.blocks = []) :
    p.findings.filter (·.site.thread = some t.id) = [⟨⟨some t.id, none⟩, .emptyThread⟩] := by
  rw [filter_findings_thread ht, Thread.findings, Thread.ownDefects_of_nil hnil, hnil]
  rfl

end Program

/-! ### Order -/

theorem pairwise_map_finding (site : Site) (defects : List Defect) :
    (defects.map (Finding.mk site)).Pairwise fun f g => f.site.NoLater g.site := by
  rw [List.pairwise_map]
  exact List.pairwise_of_forall fun _ _ => .inr ⟨rfl, .inr rfl⟩

theorem Thread.pairwise_findings (p : Program) (t : Thread) :
    (t.findings p).Pairwise fun f g => f.site.NoLater g.site := by
  rw [findings, List.pairwise_append, List.pairwise_flatMap]
  refine ⟨pairwise_map_finding _ _, ⟨fun _ _ => pairwise_map_finding _ _, ?_⟩, ?_⟩
  · refine (List.pairwise_map.1 t.pairwise_blocks).imp ?_
    intro b c hlt f hf g hg
    obtain ⟨_, -, rfl⟩ := List.mem_map.1 hf
    obtain ⟨_, -, rfl⟩ := List.mem_map.1 hg
    exact .inr ⟨rfl, .inl (Option.some_lt_some.2 hlt)⟩
  · intro f hf g hg
    obtain ⟨_, -, rfl⟩ := List.mem_map.1 hf
    obtain ⟨b, -, hg⟩ := List.mem_flatMap.1 hg
    obtain ⟨_, -, rfl⟩ := List.mem_map.1 hg
    exact .inr ⟨rfl, .inl Option.none_lt_some⟩

namespace Program

variable {p : Program} {t : Thread}

theorem pairwise_findings (p : Program) :
    p.findings.Pairwise fun f g => f.site.NoLater g.site := by
  rw [findings, List.pairwise_append, List.pairwise_flatMap]
  refine ⟨pairwise_map_finding _ _, ⟨fun t _ => t.pairwise_findings p, ?_⟩, ?_⟩
  · have hids := p.consistent.ascending
    rw [← p.map_id_threadList, List.pairwise_map] at hids
    refine hids.imp ?_
    intro t u hlt f hf g hg
    left
    rw [Thread.site_thread_of_mem_findings hf, Thread.site_thread_of_mem_findings hg]
    exact Option.some_lt_some.2 hlt
  · intro f hf g hg
    obtain ⟨_, -, rfl⟩ := List.mem_map.1 hf
    obtain ⟨t, -, hg⟩ := List.mem_flatMap.1 hg
    left
    rw [Thread.site_thread_of_mem_findings hg]
    exact Option.none_lt_some

/-- **The findings are exactly what is wrong.** There are none if and only if the program is well
formed. Every condition that is violated is reported at the site that violates it, once for each
name, constant or target that is at fault; of a thread without blocks only that is reported. The
program comes first, then its threads, each before its blocks, in ascending order. -/
theorem findings_exact (p : Program) :
    (p.findings = [] ↔ p.WellFormed) ∧
    (∀ f, f ∈ p.findings ↔ p.Has f) ∧
    (∀ t ∈ p.threadList, ∀ b ∈ t.blocks,
      p.findings.countP (·.site = ⟨some t.id, some b.id⟩) =
        b.action.names.countP (· ∉ p.declared) + (if b.action.Oversized then 1 else 0) +
        b.action.targets.countP (fun i => t.block? i = none)) ∧
    (∀ t ∈ p.threadList, t.blocks ≠ [] →
      p.findings.countP (·.site = ⟨some t.id, none⟩) =
        (if t.blocks.length ≤ 100 then 0 else 1) + (if t.starts.length = 1 then 0 else 1) +
        (if ∃ b ∈ t.blocks, b.action = .finish then 0 else 1)) ∧
    (∀ t ∈ p.threadList, t.blocks = [] →
      p.findings.filter (·.site.thread = some t.id) = [⟨⟨some t.id, none⟩, .emptyThread⟩]) ∧
    p.findings.countP (·.site.thread = none) =
      (if 1 ≤ p.threadList.length ∧ p.threadList.length ≤ 100 then 0 else 1) +
      (if p.declared.length ≤ 100 then 0 else 1) ∧
    p.findings.Pairwise fun f g => f.site.NoLater g.site := by
  refine ⟨findings_eq_nil_iff, fun f => mem_findings_iff, ?_, ?_, ?_, p.countP_site_program,
    p.pairwise_findings⟩
  · intro t ht b hb
    exact countP_site_block ht hb
  · intro t ht hne
    exact countP_site_own ht hne
  · intro t ht hnil
    exact filter_findings_of_nil ht hnil

/-- A block that copies an undeclared variable to itself, and then goes where there is no block, has
three findings, and the empty thread beside it has one. -/
theorem flawed_findings :
    ¬ Demo.flawed.WellFormed ∧
    Demo.flawed.findings.countP (·.site = ⟨some ⟨2⟩, some ⟨0⟩⟩) = 3 ∧
    Demo.flawed.findings.filter (·.site.thread = some ⟨1⟩) =
      [⟨⟨some ⟨1⟩, none⟩, .emptyThread⟩] := by
  obtain ⟨haccepted, -, hblock, -, hempty, -⟩ := findings_exact Demo.flawed
  have hdeclared : Demo.flawed.declared = ["y"] := by decide +kernel
  obtain ⟨t, ht, htid, htnil⟩ : ∃ t ∈ Demo.flawed.threadList, t.id = ⟨1⟩ ∧ t.blocks = [] := by
    decide +kernel
  obtain ⟨u, hu, huid, hblocks, hmissing⟩ : ∃ u ∈ Demo.flawed.threadList,
      u.id = ⟨2⟩ ∧ u.blocks = [⟨⟨0⟩, .assign "x" (.copy "x") ⟨9⟩⟩] ∧ u.block? ⟨9⟩ = none := by
    decide +kernel
  have hone := hempty t ht htnil
  have hthree := hblock u hu ⟨⟨0⟩, .assign "x" (.copy "x") ⟨9⟩⟩ (by simp [hblocks])
  rw [htid] at hone
  rw [huid] at hthree
  refine ⟨?_, ?_, hone⟩
  · rw [← haccepted]
    intro hnil
    simp [hnil] at hone
  · rw [hthree]
    simp [Action.names, Action.targets, Action.Oversized, Operand.names, hdeclared, hmissing]

end Program

end Flowchart
