import StackC.Proofs.Asm.Operands
import StackC.Proofs.Lowering.Crossing
import StackC.Proofs.Lowering.Helpers

/-! Statements that leave nothing on the stack, and comparison routines that replace their operands:
which meaning of the conditional jumps the code of a program asks for. -/
namespace StackC

/-- The statement is the body of the function, or stands inside it. -/
def Function.Holds (f : Function) (x : Stmt) : Prop :=
  ∃ b, f.body = some b ∧ (Stmt.block b.pos b.stmts).Holds x

/-- Control can get behind some conditional or loop. -/
def Program.Branches (p : Program) : Prop :=
  ∃ f ∈ p.funcs, ∃ x, f.Holds x ∧ x.isControl ∧ x.passes

/-- What stands inside a proper statement is proper. -/
theorem Stmt.Proper.of_holds {count : Nat} {req : Requirements} {x z : Stmt}
    (h : x.Proper count req) (hz : x.Holds z) (hp : z.isAbsent = false) : z.Proper count req := by
  induction hz with
  | self => exact h
  | block mem inner ih =>
    cases h with
    | block proper => exact ih (proper _ mem) hp
  | yes inner ih =>
    cases h with
    | cond tested first second => exact ih first hp
  | no inner ih =>
    cases h with
    | cond tested first second => exact ih (second (inner.isAbsent hp)) hp
  | first inner ih =>
    cases h with
    | loop started tested stepped body => exact ih (started (inner.isAbsent hp)) hp
  | body inner ih =>
    cases h with
    | loop started tested stepped body => exact ih body hp

namespace Lowering

open Asm

def context (p : Program) (f : Function) : Context where
  locals := f.locals
  req := p.req
  exit := if p.topLevel then topExit else exitLabel f.name

/-- Every path from the beginning of the code to its end comes out at the depth it began with. -/
def Level (m : JumpMeaning) (calls : List Invocation) (part : List Instr) : Prop :=
  ∀ k d e, Path m (mark calls part) k (mark calls part) d [] e → e = d

/-- With this meaning of the jumps, the code of each statement leaves nothing on the stack, and each
comparison routine replaces its operands. A return does not get to its end. -/
structure Balanced (m : JumpMeaning) (p : Program) (code : List Instr) : Prop where
  statements : ∀ f ∈ p.funcs, ∀ x, f.Holds x → ∀ n part n',
    statement (context p f) n x = .ok (part, n') → part <:+: code → Level m x.calls part
  routines : ∀ r ∈ Routine.all, r.code <:+: code → Replaces m r

private theorem exit_not_mem_numbered (p : Program) (f : Function) (k : Nat) :
    (context p f).exit ∉ numbered k := by
  unfold context
  cases p.topLevel with
  | true => exact topExit_not_mem_numbered k
  | false => exact exitLabel_not_mem_numbered f.name k

section Parts

variable {c : Context} {n n' : Nat} {code : List Instr}

/-- The code of a statement has that of each statement inside. -/
theorem emits_of_holds {piece : Piece} (h : Emits c piece n code n') {z : Stmt}
    (hz : piece.Holds z) (hp : z.isAbsent = false) :
    ∃ n₁ part n₂, Emits c (.one z) n₁ part n₂ ∧ part <:+: code := by
  have optional {y : Stmt} (hy : y.Holds z) : (Piece.ofOptional y).Holds z := by
    unfold Piece.ofOptional
    rw [hy.isAbsent hp]
    exact hy
  induction h with
  | nil =>
    obtain ⟨x, hx, -⟩ := hz
    cases hx
  | @cons n n₁ n' x xs a b first rest ih₁ ih₂ =>
    obtain ⟨y, hy, hz⟩ := hz
    rcases List.mem_cons.mp hy with rfl | hy
    · obtain ⟨n₁, part, n₂, he, hi⟩ := ih₁ hz
      exact ⟨n₁, part, n₂, he, hi.trans (List.prefix_append a b).isInfix⟩
    · obtain ⟨n₁, part, n₂, he, hi⟩ := ih₂ ⟨y, hy, hz⟩
      exact ⟨n₁, part, n₂, he, hi.trans (List.suffix_append a b).isInfix⟩
  | block inner ih =>
    cases hz with
    | self => exact ⟨_, _, _, .block inner, List.infix_refl _⟩
    | block mem hz => exact ih ⟨_, mem, hz⟩
  | cond proper tested first second ih₁ ih₂ =>
    cases hz with
    | self => exact ⟨_, _, _, .cond proper tested first second, List.infix_refl _⟩
    | yes hz =>
      obtain ⟨n₁, part, n₂, he, hi⟩ := ih₁ hz
      exact ⟨n₁, part, n₂, he, hi.trans yes_infix_condCode⟩
    | no hz =>
      obtain ⟨n₁, part, n₂, he, hi⟩ := ih₂ (optional hz)
      exact ⟨n₁, part, n₂, he, hi.trans no_infix_condCode⟩
  | loop properTest properStep started tested inner stepped ih₁ ih₂ =>
    cases hz with
    | self =>
      exact ⟨_, _, _, .loop properTest properStep started tested inner stepped, List.infix_refl _⟩
    | first hz =>
      obtain ⟨n₁, part, n₂, he, hi⟩ := ih₁ (optional hz)
      exact ⟨n₁, part, n₂, he, hi.trans first_infix_loopCode⟩
    | body hz =>
      obtain ⟨n₁, part, n₂, he, hi⟩ := ih₂ hz
      exact ⟨n₁, part, n₂, he, hi.trans body_infix_loopCode⟩
  | @ret n pos x code proper valued =>
    cases hz
    exact ⟨n, _, n, .ret proper valued, List.infix_refl _⟩
  | @expr n pos x code proper run =>
    cases hz
    exact ⟨n, _, n, .expr proper run, List.infix_refl _⟩

variable {m : JumpMeaning} {x : Stmt} {part : List Instr}

theorem nodup_labels_mark (h : Emits c (.one x) n part n') :
    (labels (instrs (mark x.calls part))).Nodup := by
  rw [instrs_mark]
  exact (fresh_of_emits h).2.nodup

private theorem level_of_calm (hexit : ∀ k, c.exit ∉ numbered k) (h : Emits c (.one x) n part n')
    (calm : Calm m (.one x)) : Level m x.calls part := by
  intro k d e path
  have hl : c.exit ∉ labels (instrs (mark x.calls part)) := by
    rw [instrs_mark]
    intro hm
    obtain ⟨k, -, -, hk⟩ := (fresh_of_emits h).2.range _ hm
    exact hexit k hk
  have leaves : Leaves m (mark x.calls part) (.one x) (mark x.calls part) :=
    leaves_of_layout (nodup_labels_mark h) hl (layout_of_emits m h)
  have behind := leaves [] k d e
  rw [List.append_nil] at behind
  obtain ⟨-, k', -, d', hd', path⟩ := behind (List.suffix_refl _) path
  rw [path.eq_of_nil]
  exact hd' calm

/-- A conditional or a loop that control gets behind needs a jump that takes what it tests. -/
theorem zeroPops_of_level (h : Emits c (.one x) n part n') (hx : x.isControl) (hp : x.passes)
    (level : Level m x.calls part) : m.zeroPops = true := by
  have crosses : Crosses m (mark x.calls part) (.one x) (mark x.calls part) :=
    crosses_of_layout (nodup_labels_mark h) (layout_of_emits m h) hp
  have across := crosses []
  rw [List.append_nil] at across
  obtain ⟨k, r, hr, path⟩ := across (List.suffix_refl _)
  have hr := hr hx
  have hdepth := level k 0 (0 + r) (path 0)
  by_contra hz
  have hleft : m.left = 1 := if_neg hz
  omega

end Parts

section Programs

variable {m : JumpMeaning} {p : Program} {code : List Instr}

private theorem emits_of_mem_functions {req : Requirements} {n n' : Nat} {fs : List Function}
    {rs : List (List Instr)} (h : EmitsFunctions req n fs rs n') {f : Function} (hf : f ∈ fs) :
    ∃ b n₁ inner n₂, f.body = some b ∧
      Emits { locals := f.locals, req, exit := exitLabel f.name } (.many b.stmts) n₁ inner n₂ ∧
      inner <:+: rs.flatten := by
  induction h with
  | nil => cases hf
  | @cons n n₁ n' g fs b inner rs hasBody first rest ih =>
    rw [List.flatten_cons]
    rcases List.mem_cons.mp hf with rfl | hf
    · refine ⟨b, _, inner, _, hasBody, first, ?_⟩
      refine List.IsInfix.trans ?_ (List.prefix_append _ _).isInfix
      exact ⟨[.label f.name], [.label (exitLabel f.name), .ret], rfl⟩
    · obtain ⟨b, n₁, inner, n₂, hb, he, hi⟩ := ih hf
      exact ⟨b, n₁, inner, n₂, hb, he, hi.trans (List.suffix_append _ _).isInfix⟩

/-- The code of a program has that of the body of each of its functions. -/
theorem emits_of_mem (h : EmitsProgram p code) {f : Function} (hf : f ∈ p.funcs) :
    ∃ b n inner n', f.body = some b ∧ Emits (context p f) (.many b.stmts) n inner n' ∧
      inner <:+: code := by
  cases h with
  | @topLevel g b inner n' isTop single hasBody first =>
    rw [single, List.mem_singleton] at hf
    subst hf
    refine ⟨b, 0, inner, n', hasBody, ?_, ?_⟩
    · simp only [context, isTop, if_true]
      exact first
    · exact ⟨.jump startLabel :: (routines p.req ++ [.label startLabel]),
        [.label topExit, .display, .halt], by simp⟩
  | @functions rs n' notTop unreserved hasMain emitted =>
    obtain ⟨b, n₁, inner, n₂, hb, he, hi⟩ := emits_of_mem_functions emitted hf
    refine ⟨b, n₁, inner, n₂, hb, ?_, hi.trans ?_⟩
    · simp only [context, notTop]
      exact he
    · exact ⟨.jump startLabel :: routines p.req,
        [.label startLabel, .call mainName, .display, .halt], by simp⟩

/-- A routine stands in the code if and only if it is needed. -/
theorem infix_iff_needs (hp : p.Proper) (h : EmitsProgram p code) {r : Routine}
    (hr : r ∈ Routine.all) : r.code <:+: code ↔ p.req.needs r.op := by
  have hcount := occurrences_routine hp h hr
  constructor
  · intro hi
    have hpos := occurrences_pos hi
    by_contra hn
    rw [if_neg hn] at hcount
    omega
  · intro hn
    rw [if_pos hn] at hcount
    exact infix_of_occurrences_pos (by omega)

theorem zeroPops_of_branches (h : EmitsProgram p code) (hb : Balanced m p code)
    (branches : p.Branches) : m.zeroPops = true := by
  obtain ⟨f, hf, x, ⟨b, hbody, hx⟩, hcontrol, hpass⟩ := branches
  obtain ⟨b', n, inner, n', hbody', he, hi⟩ := emits_of_mem h hf
  cases hbody.symm.trans hbody'
  have hpresent : x.isAbsent = false := by
    cases x with
    | absent => cases hcontrol
    | _ => rfl
  have hin : (Piece.one (.block b.pos b.stmts)).Holds x := hx
  obtain ⟨n₁, part, n₂, hpart, hsub⟩ := emits_of_holds (.block he) hin hpresent
  have hcode : statement (context p f) n₁ x = .ok (part, n₂) := lower_of_emits hpart
  have level := hb.statements f hf x ⟨b, hbody, hx⟩ n₁ part n₂ hcode (hsub.trans hi)
  exact zeroPops_of_level hpart hcontrol hpass level

/-- If tests leave nothing wherever control gets behind a conditional or a loop, every statement
leaves nothing. -/
theorem level_of_branches (hp : p.Proper) (hz : p.Branches → m.zeroPops = true) {f : Function}
    (hf : f ∈ p.funcs) {x : Stmt} (hx : f.Holds x) {n n' : Nat} {part : List Instr}
    (h : statement (context p f) n x = .ok (part, n')) : Level m x.calls part := by
  obtain ⟨b, hbody, hin⟩ := hx
  obtain ⟨b', hbody', hproper⟩ := (hp.functions f hf).body
  cases hbody.symm.trans hbody'
  have hpresent : x.isAbsent = false := by
    cases x with
    | absent => cases h
    | _ => rfl
  have hblock : (Stmt.block b.pos b.stmts).Proper f.locals.length p.req := .block hproper
  have he := emits_of_statement (hblock.of_holds hin hpresent) h
  refine level_of_calm (exit_not_mem_numbered p f) he ?_
  by_cases hbranch : p.Branches
  · exact .inl (hz hbranch)
  · refine .inr fun z hz hcontrol => Bool.eq_false_iff.mpr fun hpass => hbranch ?_
    exact ⟨f, hf, z, ⟨b, hbody, hin.trans hz⟩, hcontrol, hpass⟩

theorem suits_of_needs (hp : p.Proper) (h : EmitsProgram p code) (hb : Balanced m p code)
    {r : Routine} (hr : r ∈ Routine.all) (hn : p.req.needs r.op) : m.suits r.op :=
  (replaces_iff hr).mp (hb.routines r hr ((infix_iff_needs hp h hr).mpr hn))

private theorem suits_of_not_flagged {op : BinaryOp} (h : op ∉ Grammar.flagged) : m.suits op := by
  cases op with
  | lt | le | ne => exact absurd (by decide) h
  | _ => rfl

end Programs

/-- The code of a source is balanced for a meaning of the jumps if and only if `jumpZero` takes what
it tests, as soon as there is a conditional or a loop to get behind, and the jumps in the routine of
each comparison in the source keep it. -/
theorem balanced_iff_of_parse {src : Bytes} {toks : List Token} {p : Program} {code : List Instr}
    (hsrc : Token.scan src = .ok toks) (hp : Grammar.parse toks {} = .ok p)
    (hc : program p = .ok code) (m : JumpMeaning) :
    Balanced m p code ↔
      (p.Branches → m.zeroPops = true) ∧ ∀ op, p.Uses op → m.suits op := by
  have proper := Grammar.proper_of_parse hsrc hp
  have he := emits_of_program proper hc
  constructor
  · intro hb
    refine ⟨zeroPops_of_branches he hb, fun op hu => ?_⟩
    by_cases hop : op ∈ Grammar.flagged
    · have hd : ∀ op ∈ Grammar.flagged, ∃ r ∈ Routine.all, r.op = op := by decide
      obtain ⟨r, hr, rfl⟩ := hd op hop
      exact suits_of_needs proper he hb hr ((Grammar.needs_iff_uses hsrc hp hop).mpr hu)
    · exact suits_of_not_flagged hop
  · rintro ⟨hz, hs⟩
    constructor
    case statements =>
      intro f hf x hx n part n' h _
      exact level_of_branches proper hz hf hx h
    case routines =>
      intro r hr hi
      have hn := (infix_iff_needs proper he hr).mp hi
      have hop : r.op ∈ Grammar.flagged := Grammar.mem_flagged_of_needs hn
      exact (replaces_iff hr).mpr (hs r.op ((Grammar.needs_iff_uses hsrc hp hop).mp hn))

/-- Comparisons without a conditional or a loop ask for jumps that keep what they test. -/
theorem balanced_of_twoComparisons : ∃ code, program twoComparisonsTree = .ok code ∧
    Balanced { zeroPops := false, negativePops := false } twoComparisonsTree code := by
  have straight : ¬twoComparisonsTree.Branches := by
    rintro ⟨f, hf, x, ⟨b, hb, hx⟩, hcontrol, -⟩
    cases List.mem_singleton.mp hf
    cases hb
    cases hx with
    | self => cases hcontrol
    | block mem inner =>
      cases List.mem_singleton.mp mem
      cases inner
      cases hcontrol
  refine ⟨_, rfl, (balanced_iff_of_parse scan_twoComparisons parse_twoComparisons rfl _).mpr ?_⟩
  exact ⟨fun branches => absurd branches straight, fun op _ => by cases op <;> rfl⟩

/-- The tokens of a source that gives one variable the value of another if they differ. -/
def guardedTokens : List Token :=
  [⟨.punct, 0, ascii "\x7b", 0⟩, ⟨.keyword, 1, ascii "if", 0⟩, ⟨.punct, 3, ascii "(", 0⟩,
    ⟨.ident, 4, ascii "a", 0⟩, ⟨.punct, 5, ascii "!=", 0⟩, ⟨.ident, 7, ascii "b", 0⟩,
    ⟨.punct, 8, ascii ")", 0⟩, ⟨.ident, 9, ascii "a", 0⟩, ⟨.punct, 10, ascii "=", 0⟩,
    ⟨.ident, 11, ascii "b", 0⟩, ⟨.punct, 12, ascii ";", 0⟩, ⟨.keyword, 13, ascii "return", 0⟩,
    ⟨.ident, 20, ascii "a", 0⟩, ⟨.punct, 21, ascii ";", 0⟩, ⟨.punct, 22, ascii "\x7d", 0⟩, .eof 23]

def guardedTree : Program where
  topLevel := true
  funcs := [{
    name := [], pos := 0, locals := [⟨ascii "a", .int, 4⟩, ⟨ascii "b", .int, 7⟩], body := some {
      pos := 0
      stmts := [.cond 1 (.binary 5 .ne (.var 4 0) (.var 7 1))
        (.expr 9 (.assign 10 (.var 9 0) (.var 11 1))) .absent, .ret 13 (.var 20 0)] } }]
  req := { ne := true }

private theorem branches_guardedTree : guardedTree.Branches :=
  ⟨_, List.mem_cons_self, _, ⟨_, rfl, .block List.mem_cons_self .self⟩, rfl, rfl⟩

/-- No meaning of the jumps balances the code of all sources. Around a test for `!=` the statement
needs a `jumpZero` that takes what it tests, and the routine one that keeps it. -/
theorem not_exists_balanced : ¬∃ m : JumpMeaning, ∀ src toks p code, Token.scan src = .ok toks →
    Grammar.parse toks {} = .ok p → program p = .ok code → Balanced m p code := by
  rintro ⟨m, hall⟩
  have hsrc : Token.scan (ascii "\x7bif(a!=b)a=b;return a;\x7d") = .ok guardedTokens := by
    decide +kernel
  have hp : Grammar.parse guardedTokens {} = .ok guardedTree := Grammar.parse_of_walk rfl
  obtain ⟨code, hc⟩ : ∃ code, program guardedTree = .ok code := ⟨_, rfl⟩
  have proper := Grammar.proper_of_parse hsrc hp
  have he := emits_of_program proper hc
  have hb := hall _ _ _ _ hsrc hp hc
  have htakes := zeroPops_of_branches he hb branches_guardedTree
  have hkeeps : m.suits .ne := suits_of_needs proper he hb (r := .notEqual) (by decide) rfl
  rw [JumpMeaning.suits, htakes] at hkeeps
  cases hkeeps

end Lowering

end StackC
