import StackC.Proofs.Lowering.Routines
import Mathlib.Data.List.Forall2

/-! The labels, jumps, numbers and calls of comparison routines and of functions. -/
namespace StackC.Lowering

open Asm

/-- Enough of a label to tell its kind. -/
def stem (l : Bytes) : Bytes := l.take 4

def numberedStems : List Bytes := [ascii "l.el", ascii "l.be", ascii "l.en"]

def exitStem : Bytes := ascii "l.re"

theorem stem_numbered {l : Bytes} {k : Nat} (h : l ∈ numbered k) : stem l ∈ numberedStems := by
  simp only [numbered, List.mem_cons, List.not_mem_nil, or_false] at h
  rcases h with rfl | rfl | rfl
  · exact List.mem_of_getElem? (i := 0) rfl
  · exact List.mem_of_getElem? (i := 1) rfl
  · exact List.mem_of_getElem? (i := 2) rfl

theorem stem_exitLabel (name : Bytes) : stem (exitLabel name) = exitStem := rfl

theorem exitLabel_not_mem_numbered (name : Bytes) (k : Nat) : exitLabel name ∉ numbered k := by
  intro h
  exact absurd (stem_exitLabel name ▸ stem_numbered h) (by decide)

theorem topExit_not_mem_numbered (k : Nat) : topExit ∉ numbered k := by
  intro h
  exact absurd (stem_numbered h) (by decide)

theorem dot_mem_topExit : byte '.' ∈ topExit := by decide

theorem dot_mem_exitLabel (name : Bytes) : byte '.' ∈ exitLabel name :=
  List.mem_append_left _ (by decide)

private theorem exitLabel_inj {a b : Bytes} (h : exitLabel a = exitLabel b) : a = b :=
  List.append_cancel_left h

section Helpers

def helperCode : List Instr := Routine.all.flatMap Routine.code

theorem routines_sublist (req : Requirements) : (routines req).Sublist helperCode := by
  unfold routines helperCode
  induction Routine.all with
  | nil => exact .slnil
  | cons r rs ih =>
    rw [List.filter_cons, List.flatMap_cons]
    split
    · exact ih.append_left r.code
    · exact ih.trans (List.sublist_append_right r.code _)

theorem nodup_labels_routines (req : Requirements) : (labels (routines req)).Nodup := by
  have hn : (labels helperCode).Nodup := by decide
  exact hn.sublist ((routines_sublist req).filterMap Instr.defines?)

/-- The labels of comparison routines are reserved, or they are of a kind of their own. -/
theorem stem_of_mem_routines {req : Requirements} {l : Bytes} (h : l ∈ labels (routines req)) :
    l ≠ startLabel ∧ (l ∈ reservedNames ∨ byte '.' ∈ l) ∧ stem l ∉ exitStem :: numberedStems := by
  have hl : l ∈ labels helperCode := ((routines_sublist req).filterMap Instr.defines?).subset h
  have ha : ∀ l ∈ labels helperCode, l ≠ startLabel ∧ (l ∈ reservedNames ∨ byte '.' ∈ l) ∧
      stem l ∉ exitStem :: numberedStems := by decide
  exact ha l hl

theorem filter_routines (req : Requirements) (k : Nat) :
    (routines req).filter (mentions k) = [] := by
  refine List.filter_eq_nil_iff.mpr fun i hi => ?_
  have ha : ∀ i ∈ helperCode, i.names?.all (fun l => stem l ∉ numberedStems) := by decide
  have hs := ha i ((routines_sublist req).subset hi)
  unfold mentions
  cases hn : i.names? with
  | none => simp
  | some l =>
    rw [hn] at hs
    simp only [Option.any_some, List.contains_iff_mem]
    exact fun hm => absurd (stem_numbered hm) (by simpa using hs)

theorem isRoutine_helper : ∀ r ∈ Routine.all, IsRoutine r.name r.code := by
  have hd : ∀ r ∈ Routine.all, r.body.dropLast.any Instr.isEnd = false ∧
      r.body = r.body.dropLast ++ [ending r.name] ∧ targets r.code ⊆ labels r.code := by decide
  intro r hr
  obtain ⟨he, hb, hc⟩ := hd r hr
  exact ⟨⟨r.body.dropLast, congrArg _ hb, he⟩, hc⟩

end Helpers

section Bodies

variable {c : Context} {piece : Piece} {n m : Nat} {inner : List Instr} (entry : Bytes)
  (tail : List Instr)

/-- A body between its entry and its exit is a routine. -/
theorem isRoutine_of_emits (h : Emits c piece n inner m) (ht : tail.all Instr.isPlain) :
    IsRoutine entry
      (.label entry :: (inner ++ Instr.label c.exit :: (tail ++ [ending entry]))) := by
  have hlast : targets [ending entry] = [] := by
    unfold ending
    split <;> rfl
  constructor
  · refine ⟨inner ++ Instr.label c.exit :: tail, by simp, ?_⟩
    rw [List.any_append, isEnd_of_emits h, List.any_cons, isEnd_plain ht]
    rfl
  · intro l hm
    rw [targets_label, targets_append, targets_label, targets_append, targets_plain ht, hlast,
      List.append_nil, List.append_nil] at hm
    rw [labels_label, labels_append, labels_label]
    rcases targets_of_emits h l hm with rfl | hm
    · simp
    · simp [hm]

/-- The numbers in a body between its entry and its exit. -/
theorem filter_routine_of_emits (h : Emits c piece n inner m) (hc : ∀ k, c.exit ∉ numbered k)
    (he : ∀ k, entry ∉ numbered k) (ht : tail.all Instr.isPlain) (k : Nat) :
    (Instr.label entry :: (inner ++ Instr.label c.exit :: (tail ++ [ending entry]))).filter
      (mentions k) = numberedCode n piece.controls k := by
  have hlast : mentions k (ending entry) = false := by
    unfold ending
    split <;> rfl
  simp [he k, hc k, filter_of_emits hc h, filter_plain ht, hlast]

/-- The labels of a body between its entry and its exit are distinct. -/
theorem nodup_labels_of_emits (h : Emits c piece n inner m) (hc : ∀ k, c.exit ∉ numbered k)
    (hd : byte '.' ∈ c.exit) (he : byte '.' ∉ entry) :
    (entry :: (labels inner ++ [c.exit])).Nodup := by
  obtain ⟨-, hf⟩ := fresh_of_emits h
  rw [List.nodup_cons, List.mem_append, List.mem_singleton]
  constructor
  · rintro (hl | rfl)
    · obtain ⟨k, -, -, hl⟩ := hf.range entry hl
      exact he (dot_mem_numbered hl)
    · exact he hd
  · refine List.Nodup.append hf.nodup (List.nodup_singleton _) fun l hl hx => ?_
    obtain ⟨k, -, -, hl⟩ := hf.range l hl
    exact hc k (List.mem_singleton.mp hx ▸ hl)

end Bodies

section Functions

variable {req : Requirements} {n m : Nat} {fs : List Function} {rs : List (List Instr)}

theorem ending_of_unreserved {name : Bytes} (h : name ∉ reservedNames) : ending name = .ret := by
  refine if_neg fun hs => h ?_
  rw [hs]
  decide

theorem isRoutine_functions (h : EmitsFunctions req n fs rs m)
    (hu : ∀ f ∈ fs, f.name ∉ reservedNames) :
    List.Forall₂ IsRoutine (fs.map Function.name) rs := by
  induction h with
  | nil => exact .nil
  | @cons n n₁ m f fs b inner rs hasBody first rest ih =>
    rw [List.forall_mem_cons] at hu
    refine .cons ?_ (ih hu.2)
    have hf := isRoutine_of_emits f.name [] first rfl
    rwa [ending_of_unreserved hu.1] at hf

theorem labels_function (name : Bytes) (inner : List Instr) :
    labels (.label name :: (inner ++ [Instr.label (exitLabel name), .ret])) =
      name :: (labels inner ++ [exitLabel name]) := by
  rw [labels_label, labels_append]
  rfl

/-- The labels of functions are their names, their exits, and fresh ones. -/
theorem labels_functions (h : EmitsFunctions req n fs rs m) :
    n ≤ m ∧ ∀ l ∈ labels rs.flatten, l ∈ fs.map Function.name ∨
      (∃ f ∈ fs, l = exitLabel f.name) ∨ ∃ k, n < k ∧ l ∈ numbered k := by
  induction h with
  | nil => simp
  | @cons n n₁ m f fs b inner rs hasBody first rest ih =>
    obtain ⟨hle, hf⟩ := fresh_of_emits first
    refine ⟨Nat.le_trans hle ih.1, fun l hl => ?_⟩
    rw [List.flatten_cons, labels_append, labels_function, List.mem_append, List.mem_cons,
      List.mem_append, List.mem_singleton] at hl
    rcases hl with (rfl | hl | rfl) | hl
    · exact .inl (by simp)
    · obtain ⟨k, hk, -, hl⟩ := hf.range l hl
      exact .inr (.inr ⟨k, hk, hl⟩)
    · exact .inr (.inl ⟨f, by simp, rfl⟩)
    · rcases ih.2 l hl with hl | ⟨g, hg, rfl⟩ | ⟨k, hk, hl⟩
      · exact .inl (List.mem_cons_of_mem _ hl)
      · exact .inr (.inl ⟨g, List.mem_cons_of_mem _ hg, rfl⟩)
      · exact .inr (.inr ⟨k, Nat.lt_of_le_of_lt hle hk, hl⟩)

theorem nodup_labels_functions (h : EmitsFunctions req n fs rs m)
    (hd : (fs.map Function.name).Nodup) (hn : ∀ f ∈ fs, Token.IsName f.name) :
    (labels rs.flatten).Nodup := by
  induction h with
  | nil => exact List.nodup_nil
  | @cons n n₁ m f fs b inner rs hasBody first rest ih =>
    rw [List.forall_mem_cons] at hn
    rw [List.map_cons, List.nodup_cons] at hd
    have dotless {l : Bytes} (hl : l ∈ fs.map Function.name) : byte '.' ∉ l := by
      obtain ⟨g, hg, rfl⟩ := List.mem_map.mp hl
      exact (hn.2 g hg).dotless
    rw [List.flatten_cons, labels_append, labels_function]
    have hf := nodup_labels_of_emits f.name first (exitLabel_not_mem_numbered f.name)
      (dot_mem_exitLabel f.name) hn.1.dotless
    refine List.Nodup.append hf (ih hd.2 hn.2) fun l hl hr => ?_
    rw [List.mem_cons, List.mem_append, List.mem_singleton] at hl
    rcases hl with rfl | hl | rfl
    · rcases (labels_functions rest).2 f.name hr with hr | ⟨g, -, he⟩ | ⟨k, -, hk⟩
      · exact hd.1 hr
      · exact hn.1.dotless (he ▸ dot_mem_exitLabel g.name)
      · exact hn.1.dotless (dot_mem_numbered hk)
    · obtain ⟨j, -, hj, hl⟩ := (fresh_of_emits first).2.range l hl
      rcases (labels_functions rest).2 l hr with hr | ⟨g, -, rfl⟩ | ⟨k, hk, hr⟩
      · exact dotless hr (dot_mem_numbered hl)
      · exact exitLabel_not_mem_numbered g.name j hl
      · exact absurd (numbered_inj hl hr) (by omega)
    · rcases (labels_functions rest).2 _ hr with hr | ⟨g, hg, he⟩ | ⟨k, -, hk⟩
      · exact dotless hr (dot_mem_exitLabel f.name)
      · exact hd.1 (exitLabel_inj he ▸ List.mem_map_of_mem hg)
      · exact exitLabel_not_mem_numbered f.name k hk

/-- The conditionals and loops of functions have the numbers from `n` on. -/
theorem filter_functions (h : EmitsFunctions req n fs rs m)
    (hn : ∀ f ∈ fs, Token.IsName f.name) (hu : ∀ f ∈ fs, f.name ∉ reservedNames) (k : Nat) :
    rs.flatten.filter (mentions k) = numberedCode n (fs.flatMap Function.controls) k := by
  induction h with
  | nil => simp
  | @cons n n₁ m f fs b inner rs hasBody first rest ih =>
    rw [List.forall_mem_cons] at hn hu
    have he (k : Nat) : f.name ∉ numbered k := fun hm => hn.1.dotless (dot_mem_numbered hm)
    have hf := filter_routine_of_emits f.name [] first (exitLabel_not_mem_numbered f.name) he rfl k
    rw [ending_of_unreserved hu.1, List.nil_append] at hf
    rw [List.flatten_cons, List.filter_append, hf, ih hn.2 hu.2, List.flatMap_cons,
      Function.controls, hasBody, Option.elim_some, numberedCode_append, count_of_emits first]
    rfl

/-- Each conditional and loop of functions is somewhere in their code, under its number. -/
theorem part_of_functions (h : EmitsFunctions req n fs rs m) {j : Nat} {x : Stmt}
    (hx : (fs.flatMap Function.controls)[j]? = some x) :
    ∃ c part m', Emits c (.one x) (n + j) part m' ∧ part <:+: rs.flatten := by
  induction h generalizing j with
  | nil => cases hx
  | @cons n n₁ m f fs b inner rs hasBody first rest ih =>
    rw [List.flatMap_cons, Function.controls, hasBody] at hx
    rcases getElem?_append_cases hx with hx | ⟨i, rfl, hi⟩
    · obtain ⟨part, m', hp, hi⟩ := part_of_emits first hx
      refine ⟨_, part, m', hp, hi.trans ⟨[.label f.name],
        [Instr.label (exitLabel f.name), .ret] ++ rs.flatten, by simp⟩⟩
    · obtain ⟨c, part, m', hp, hs⟩ := ih hi
      rw [count_of_emits first] at hp
      refine ⟨c, part, m', ?_, hs.trans (List.suffix_append _ _).isInfix⟩
      rw [← Nat.add_assoc]
      exact hp

theorem calls_of_functions (h : EmitsFunctions req n fs rs m) :
    Calls (fs.flatMap Function.nodes) rs.flatten := by
  induction h with
  | nil => exact .nil
  | @cons n n₁ m f fs b inner rs hasBody first rest ih =>
    rw [List.flatMap_cons, Function.nodes, hasBody]
    exact .append ((calls_of_emits first).mono (by simp)) (ih.mono (List.subset_append_right _ _))

/-- Where a function stands among the others. -/
theorem function_mem (h : EmitsFunctions req n fs rs m) {f : Function} (hf : f ∈ fs) :
    ∃ k inner m' before rest, body req f.name (exitLabel f.name) k f =
        .ok (.label f.name :: inner, m') ∧
      rs.flatten = before ++ Instr.label f.name :: (inner ++ Instr.ret :: rest) := by
  induction h with
  | nil => cases hf
  | @cons n n₁ m g fs b inner rs hasBody first rest ih =>
    rcases List.mem_cons.mp hf with rfl | hf
    · have hs := lower_of_emits first
      simp only [Piece.lower] at hs
      refine ⟨n, inner ++ [Instr.label (exitLabel f.name)], n₁, [], rs.flatten, ?_, by simp⟩
      simp [body, hasBody, hs]
    · obtain ⟨k, code, m', before, after, hb, he⟩ := ih hf
      exact ⟨k, code, m', _ ++ before, after, hb, by rw [List.flatten_cons, he, List.append_assoc]⟩

end Functions

end StackC.Lowering
