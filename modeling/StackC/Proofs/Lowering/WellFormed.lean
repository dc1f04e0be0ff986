import StackC.Proofs.Cursor.Program
import StackC.Proofs.Lowering.Functions
import StackC.Proofs.Tree.Parsed

/-! The code of a program is well formed: its labels are distinct, its jumps stay in their routines,
its numbers are handed out in order, and its calls find the functions that they name. -/
namespace StackC

def Program.named (p : Program) : List Function := if p.topLevel then [] else p.funcs

theorem Program.named_of_topLevel {p : Program} (h : p.topLevel = true) : p.named = [] := by
  rw [named, h, if_pos rfl]

theorem Program.named_of_functions {p : Program} (h : p.topLevel = false) : p.named = p.funcs := by
  rw [named, h]
  rfl

namespace Lowering

open Asm

/-- The labels that the routines of a program are entered by, in order. -/
def entries (p : Program) : List Bytes :=
  (Routine.all.filter fun r => p.req.needs r.op).map Routine.name ++
    (p.named.map Function.name ++ [startLabel])

def labelKinds : List Bytes := [ascii "l.else.", ascii "l.begin.", ascii "l.end."]

/-- Behind the label of a function stands the code of its body. -/
def Holds (req : Requirements) (code : List Instr) (f : Function) : Prop :=
  ∃ k inner m rest, body req f.name (exitLabel f.name) k f = .ok (.label f.name :: inner, m) ∧
    behind f.name code = some (inner ++ Instr.ret :: rest)

/-- What the code of a program has to be like for its labels to be found. -/
structure WellFormed (p : Program) (code : List Instr) : Prop where
  distinct : (labels code).Nodup
  defined : targets code ⊆ labels code
  /-- Behind the first jump there are routines only. -/
  routines : ∃ rs, code = .jump startLabel :: rs.flatten ∧ List.Forall₂ IsRoutine (entries p) rs
  /-- The labels with a number have those from 1 to the number of conditionals and loops. -/
  range : ∀ l ∈ labels code, ∀ kind ∈ labelKinds, kind <+: l →
    ∃ j < p.controls.length, l ∈ numbered (j + 1)
  /-- A number is on the labels of one conditional or loop, and on no others. -/
  numbers : ∀ j, code.filter (mentions (j + 1)) = (p.controls[j]?).elim [] (frame (j + 1))
  /-- The numbers are handed out in order. -/
  preorder : ∀ j x, p.controls[j]? = some x →
    ∃ c part m, statement c j x = .ok (part, m) ∧ part <:+: code
  /-- A call finds the function that it names, or nothing. -/
  calls : ∀ pos name args, .call pos name args ∈ p.nodes → .call name ∈ code ∧
    match findFunction? p.named name with
    | some f => f.name = name ∧ Holds p.req code f
    | none => name ∉ labels code

variable {p : Program} {code : List Instr}

/-- Routines one after the other have the targets of their jumps. -/
theorem closed_of_routines {es : List Bytes} {rs : List (List Instr)}
    (h : List.Forall₂ IsRoutine es rs) :
    es ⊆ labels rs.flatten ∧ targets rs.flatten ⊆ labels rs.flatten := by
  induction h with
  | nil => exact ⟨List.Subset.refl _, List.Subset.refl _⟩
  | @cons entry r es rs first rest ih =>
    obtain ⟨⟨inner, hr, -⟩, hc⟩ := first
    have he : entry ∈ labels r := by simp [hr]
    rw [List.flatten_cons, labels_append, targets_append, List.cons_subset, List.append_subset]
    have left := List.subset_append_left (labels r) (labels rs.flatten)
    have right := List.subset_append_right (labels r) (labels rs.flatten)
    exact ⟨⟨left he, List.Subset.trans ih.1 right⟩, List.Subset.trans hc left,
      List.Subset.trans ih.2 right⟩

private theorem isRoutine_helpers (req : Requirements) :
    ∃ rs, routines req = rs.flatten ∧ List.Forall₂ IsRoutine
      ((Routine.all.filter fun r => req.needs r.op).map Routine.name) rs := by
  refine ⟨_, List.flatMap_def, ?_⟩
  rw [List.forall₂_map_left_iff, List.forall₂_map_right_iff, List.forall₂_same]
  exact fun r hr => isRoutine_helper r (List.mem_of_mem_filter hr)

private theorem isRoutine_of_program (h : EmitsProgram p code) :
    ∃ rs, code = .jump startLabel :: rs.flatten ∧ List.Forall₂ IsRoutine (entries p) rs := by
  obtain ⟨hs, he, hr⟩ := isRoutine_helpers p.req
  unfold entries
  cases h with
  | topLevel isTop single hasBody first =>
    have hm := isRoutine_of_emits startLabel [.display] first rfl
    rw [Program.named_of_topLevel isTop]
    refine ⟨hs ++ [_], ?_, List.rel_append hr (.cons hm .nil)⟩
    simp [he, ending]
  | @functions rs m notTop unreserved hasMain emitted =>
    have hf := isRoutine_functions emitted unreserved
    have hm : IsRoutine startLabel [.label startLabel, .call mainName, .display, .halt] :=
      ⟨⟨[.call mainName, .display], rfl, rfl⟩, by decide⟩
    rw [Program.named_of_functions notTop]
    refine ⟨hs ++ (rs ++ [_]), ?_, List.rel_append hr (List.rel_append hf (.cons hm .nil))⟩
    simp [he]

/-- The labels of the main part of a program without functions. -/
theorem labels_topLevel (inner : List Instr) :
    labels (.label startLabel :: (inner ++ [Instr.label topExit, .display, .halt])) =
      startLabel :: (labels inner ++ [topExit]) := by
  rw [labels_label, labels_append]
  rfl

private theorem labels_main (code : List Instr) :
    labels (code ++ [Instr.label startLabel, .call mainName, .display, .halt]) =
      labels code ++ [startLabel] := by
  rw [labels_append]
  rfl

theorem startLabel_mem_reservedNames : startLabel ∈ reservedNames := by decide

theorem startLabel_dotless : byte '.' ∉ startLabel := by decide

theorem dot_mem_of_stem {l : Bytes} (h : stem l ∈ exitStem :: numberedStems) : byte '.' ∈ l := by
  have hd : ∀ t ∈ exitStem :: numberedStems, byte '.' ∈ t := by decide
  exact List.mem_of_mem_take (hd _ h)

/-- What the labels behind the comparison routines are. -/
inductive IsOwn (p : Program) : Bytes → Prop
  | start : IsOwn p startLabel
  | name {f : Function} (member : f ∈ p.named) (callable : Callable f.name) : IsOwn p f.name
  | exit {l : Bytes} (stem_eq : stem l = exitStem) : IsOwn p l
  | numbered {l : Bytes} {k : Nat} (member : l ∈ numbered k) : IsOwn p l

/-- No label of a comparison routine is used again behind the routines. -/
theorem IsOwn.not_mem_routines {l : Bytes} (h : IsOwn p l) (req : Requirements) :
    l ∉ labels (routines req) := by
  intro hl
  obtain ⟨hs, hr, ht⟩ := stem_of_mem_routines hl
  cases h with
  | start => exact hs rfl
  | name member callable =>
    rcases hr with hr | hd
    · exact callable.2 hr
    · exact callable.1.dotless hd
  | exit stem_eq => exact ht (stem_eq ▸ List.mem_cons_self)
  | numbered member => exact ht (List.mem_cons_of_mem _ (stem_numbered member))

theorem labels_of_program (hp : p.Proper) (h : EmitsProgram p code) :
    ∃ ls, labels code = labels (routines p.req) ++ ls ∧ ls.Nodup ∧ ∀ l ∈ ls, IsOwn p l := by
  cases h with
  | topLevel isTop single hasBody first =>
    refine ⟨_, by rw [labels_jump, labels_append, labels_topLevel], ?_, fun l hm => ?_⟩
    · exact nodup_labels_of_emits startLabel first topExit_not_mem_numbered dot_mem_topExit
        startLabel_dotless
    · rw [List.mem_cons, List.mem_append, List.mem_singleton] at hm
      rcases hm with rfl | hm | rfl
      · exact .start
      · obtain ⟨k, -, -, hm⟩ := (fresh_of_emits first).2.range l hm
        exact .numbered hm
      · exact .exit rfl
  | functions notTop unreserved hasMain emitted =>
    have hn := hp.named notTop
    refine ⟨_, by rw [labels_jump, labels_append, labels_main], ?_, fun l hm => ?_⟩
    · refine List.Nodup.append (nodup_labels_functions emitted hp.distinct hn)
        (List.nodup_singleton _) fun l hl hs => ?_
      cases List.mem_singleton.mp hs
      rcases (labels_functions emitted).2 _ hl with hl | ⟨f, -, he⟩ | ⟨k, -, hk⟩
      · obtain ⟨f, hf, he⟩ := List.mem_map.mp hl
        exact unreserved f hf (he ▸ startLabel_mem_reservedNames)
      · exact startLabel_dotless (he ▸ dot_mem_exitLabel f.name)
      · exact startLabel_dotless (dot_mem_numbered hk)
    · rcases List.mem_append.mp hm with hm | hm
      · rcases (labels_functions emitted).2 l hm with hl | ⟨f, -, rfl⟩ | ⟨k, -, hk⟩
        · obtain ⟨f, hf, rfl⟩ := List.mem_map.mp hl
          refine .name ?_ ⟨hn f hf, unreserved f hf⟩
          rwa [Program.named_of_functions notTop]
        · exact .exit (stem_exitLabel f.name)
        · exact .numbered hk
      · cases List.mem_singleton.mp hm
        exact .start

theorem nodup_of_program (hp : p.Proper) (h : EmitsProgram p code) : (labels code).Nodup := by
  obtain ⟨ls, he, hn, ho⟩ := labels_of_program hp h
  rw [he]
  exact List.Nodup.append (nodup_labels_routines p.req) hn fun l hr hl =>
    (ho l hl).not_mem_routines p.req hr

/-- A name that a function may have is a label only if one has it. -/
theorem callable_mem_labels (hp : p.Proper) (h : EmitsProgram p code) {l : Bytes}
    (hc : Callable l) (hl : l ∈ labels code) : ∃ f ∈ p.named, f.name = l := by
  obtain ⟨ls, he, -, ho⟩ := labels_of_program hp h
  rw [he, List.mem_append] at hl
  rcases hl with hl | hl
  · obtain ⟨-, hr, -⟩ := stem_of_mem_routines hl
    rcases hr with hr | hd
    · exact absurd hr hc.2
    · exact absurd hd hc.1.dotless
  · cases ho l hl with
    | start => exact absurd startLabel_mem_reservedNames hc.2
    | name member callable => exact ⟨_, member, rfl⟩
    | exit stem_eq =>
      exact absurd (dot_mem_of_stem (stem_eq ▸ List.mem_cons_self)) hc.1.dotless
    | numbered member => exact absurd (dot_mem_numbered member) hc.1.dotless

/-- A label that looks like one with a number is one. -/
theorem numbered_of_stem (hp : p.Proper) (h : EmitsProgram p code) {l : Bytes}
    (hl : l ∈ labels code) (hs : stem l ∈ numberedStems) : ∃ k, l ∈ numbered k := by
  obtain ⟨ls, he, -, ho⟩ := labels_of_program hp h
  rw [he, List.mem_append] at hl
  rcases hl with hl | hl
  · exact absurd (List.mem_cons_of_mem _ hs) (stem_of_mem_routines hl).2.2
  · cases ho l hl with
    | start => exact absurd hs (by decide)
    | name member callable =>
      exact absurd (dot_mem_of_stem (List.mem_cons_of_mem _ hs)) callable.1.dotless
    | exit stem_eq =>
      rw [stem_eq] at hs
      exact absurd hs (by decide)
    | numbered member => exact ⟨_, member⟩

/-- The numbers in the code of a program are those of its conditionals and loops. -/
theorem filter_of_program (hp : p.Proper) (h : EmitsProgram p code) (k : Nat) :
    code.filter (mentions k) = numberedCode 0 p.controls k := by
  have hs (k : Nat) : startLabel ∉ numbered k := fun hm => startLabel_dotless (dot_mem_numbered hm)
  have hj : mentions k (.jump startLabel) = false := by simp [hs k]
  cases h with
  | @topLevel f b inner m isTop single hasBody first =>
    have hm := filter_routine_of_emits startLabel [.display] first topExit_not_mem_numbered hs rfl k
    have hc : p.controls = (Piece.many b.stmts).controls := by
      rw [Program.controls, single, List.flatMap_singleton, Function.controls, hasBody]
      rfl
    rw [List.filter_cons, hj, List.filter_append, filter_routines, hc]
    exact hm
  | functions notTop unreserved hasMain emitted =>
    have hf := filter_functions emitted (hp.named notTop) unreserved k
    have hm : [Instr.label startLabel, .call mainName, .display, .halt].filter (mentions k) =
        [] := by
      rw [List.filter_cons, mentions_label, decide_eq_false (hs k)]
      have hc : [Instr.call mainName, .display].filter (mentions k) = [] := filter_plain rfl
      exact (List.filter_append [Instr.call mainName, .display] [.halt]).trans (by rw [hc])
    rw [List.filter_cons, hj, List.filter_append, filter_routines, List.filter_append, hf, hm]
    exact List.append_nil _

private theorem part_of_program (h : EmitsProgram p code) {j : Nat} {x : Stmt}
    (hx : p.controls[j]? = some x) :
    ∃ c part m, Emits c (.one x) j part m ∧ part <:+: code := by
  cases h with
  | @topLevel f b inner m isTop single hasBody first =>
    rw [Program.controls, single, List.flatMap_singleton, Function.controls, hasBody] at hx
    obtain ⟨part, m', hp, hi⟩ := part_of_emits first hx
    rw [Nat.zero_add] at hp
    refine ⟨_, part, m', hp, hi.trans ⟨.jump startLabel ::
      (routines p.req ++ [Instr.label startLabel]), [.label topExit, .display, .halt], by simp⟩⟩
  | @functions rs m notTop unreserved hasMain emitted =>
    obtain ⟨c, part, m', hp, hi⟩ := part_of_functions emitted hx
    rw [Nat.zero_add] at hp
    refine ⟨c, part, m', hp, hi.trans ⟨.jump startLabel :: routines p.req,
      [.label startLabel, .call mainName, .display, .halt], by simp⟩⟩

theorem calls_of_program (h : EmitsProgram p code) : Calls p.nodes code := by
  cases h with
  | topLevel isTop single hasBody first =>
    rw [Program.nodes, single, List.flatMap_singleton, Function.nodes, hasBody]
    exact (calls_of_emits first).mono fun i hi => by simp [hi]
  | functions notTop unreserved hasMain emitted =>
    exact (calls_of_functions emitted).mono fun i hi => by
      simp only [List.mem_cons, List.mem_append, hi, true_or, or_true]

/-- The labels with a number have the numbers of the conditionals and loops. -/
theorem number_of_label (hp : p.Proper) (h : EmitsProgram p code) {l kind : Bytes}
    (hl : l ∈ labels code) (hk : kind ∈ labelKinds) (hpre : kind <+: l) :
    ∃ j < p.controls.length, l ∈ numbered (j + 1) := by
  have hs : stem l ∈ numberedStems := by
    obtain ⟨t, rfl⟩ := hpre
    simp only [labelKinds, List.mem_cons, List.not_mem_nil, or_false] at hk
    rcases hk with rfl | rfl | rfl
    · exact List.mem_of_getElem? (i := 0) rfl
    · exact List.mem_of_getElem? (i := 1) rfl
    · exact List.mem_of_getElem? (i := 2) rfl
  obtain ⟨k, hk⟩ := numbered_of_stem hp h hl hs
  have hm : .label l ∈ code.filter (mentions k) := by
    rw [List.mem_filter, mentions_label]
    exact ⟨mem_labels.mp hl, decide_eq_true hk⟩
  rw [filter_of_program hp h k] at hm
  cases k with
  | zero => cases hm
  | succ j =>
    refine ⟨j, ?_, hk⟩
    by_contra hj
    have hn : p.controls[j]? = none := List.getElem?_eq_none (Nat.le_of_not_lt hj)
    have hz : numberedCode 0 p.controls (j + 1) = [] := by
      change (p.controls[j]?).elim [] (frame (j + 1)) = []
      rw [hn]
      rfl
    rw [hz] at hm
    cases hm

/-- The code of every function stands behind its label. -/
theorem holds_of_program (hp : p.Proper) (h : EmitsProgram p code) {f : Function}
    (hf : f ∈ p.named) : Holds p.req code f := by
  have hd := nodup_of_program hp h
  cases h with
  | topLevel isTop single hasBody first =>
    rw [Program.named_of_topLevel isTop] at hf
    cases hf
  | @functions rs m notTop unreserved hasMain emitted =>
    rw [Program.named_of_functions notTop] at hf
    obtain ⟨k, inner, m', before, rest, hb, he⟩ := function_mem emitted hf
    refine ⟨k, inner, m', rest ++ [Instr.label startLabel, .call mainName, .display, .halt], hb,
      behind_of_suffix (a := before) hd ⟨.jump startLabel :: routines p.req, ?_⟩⟩
    simp [he]

/-- The code of every program that compiles is well formed. -/
theorem wellFormed_of_parse {src : Bytes} {toks : List Token} {req : Requirements} {p : Program}
    {code : List Instr} (hsrc : Token.scan src = .ok toks) (hp : Grammar.parse toks req = .ok p)
    (hc : program p = .ok code) : WellFormed p code := by
  have proper := Grammar.proper_of_parse hsrc hp
  have h := emits_of_program proper hc
  have hr := isRoutine_of_program h
  constructor
  case distinct => exact nodup_of_program proper h
  case routines => exact hr
  case defined =>
    obtain ⟨rs, rfl, hrs⟩ := hr
    obtain ⟨hent, hclosed⟩ := closed_of_routines hrs
    rw [targets_jump, labels_jump, List.cons_subset]
    exact ⟨hent (by simp [entries]), hclosed⟩
  case range => exact fun l hl kind hk hpre => number_of_label proper h hl hk hpre
  case numbers => exact fun j => filter_of_program proper h (j + 1)
  case preorder =>
    intro j x hx
    obtain ⟨c, part, m, hpart, hi⟩ := part_of_program h hx
    exact ⟨c, part, m, lower_of_emits hpart, hi⟩
  case calls =>
    intro pos name args hm
    obtain ⟨hn, hcall⟩ := calls_of_program h pos name args hm
    refine ⟨hcall, ?_⟩
    split
    · next f hf =>
      refine ⟨by simpa using List.find?_some hf, ?_⟩
      exact holds_of_program proper h (List.mem_of_find?_eq_some hf)
    · next hf =>
      intro hl
      obtain ⟨f, hmem, rfl⟩ := callable_mem_labels proper h hn hl
      exact List.find?_eq_none.mp hf f hmem (by simp)

/-- The tokens of a function that calls itself if another one, which does not exist, is positive. -/
def recursion : List Token :=
  [⟨.keyword, 0, ascii "int", 0⟩, ⟨.ident, 4, ascii "main", 0⟩, ⟨.punct, 8, ascii "(", 0⟩,
    ⟨.punct, 9, ascii ")", 0⟩, ⟨.punct, 10, ascii "\x7b", 0⟩, ⟨.keyword, 11, ascii "if", 0⟩,
    ⟨.punct, 13, ascii "(", 0⟩, ⟨.num, 14, ascii "0", 0⟩, ⟨.punct, 15, ascii "<", 0⟩,
    ⟨.ident, 16, ascii "g", 0⟩, ⟨.punct, 17, ascii "(", 0⟩, ⟨.punct, 18, ascii ")", 0⟩,
    ⟨.punct, 19, ascii ")", 0⟩, ⟨.keyword, 20, ascii "return", 0⟩, ⟨.ident, 27, ascii "main", 0⟩,
    ⟨.punct, 31, ascii "(", 0⟩, ⟨.punct, 32, ascii ")", 0⟩, ⟨.punct, 33, ascii ";", 0⟩,
    ⟨.punct, 34, ascii "\x7d", 0⟩, .eof 35]

def recursionTree : Program where
  topLevel := false
  funcs := [{ name := ascii "main", pos := 4, body := some {
    pos := 10, stmts := [.cond 11 (.binary 15 .lt (.num 14 0) (.call 16 (ascii "g") []))
      (.ret 20 (.call 27 (ascii "main") [])) .absent] } }]
  req := { lt := true }

def recursionCode : List Instr :=
  .jump startLabel :: (Routine.less.code ++
    [Instr.label (ascii "main"), .push 0, .call (ascii "g"), .call (ascii "le"),
      .jumpZero (ascii "l.else.1"), .call (ascii "main"), .jump (ascii "l.return.main"),
      .jump (ascii "l.end.1"), .label (ascii "l.else.1"), .label (ascii "l.end.1"),
      .label (ascii "l.return.main"), .ret,
      .label startLabel, .call (ascii "main"), .display, .halt])

theorem wellFormed_recursionCode :
    program recursionTree = .ok recursionCode ∧ WellFormed recursionTree recursionCode := by
  have hsrc : Token.scan (ascii "int main()\x7bif(0<g())return main();\x7d") = .ok recursion := by
    decide +kernel
  have hp : Grammar.parse recursion {} = .ok recursionTree := Grammar.parse_of_walk rfl
  have hc : program recursionTree = .ok recursionCode := by rfl
  exact ⟨hc, wellFormed_of_parse hsrc hp hc⟩

end Lowering

end StackC
