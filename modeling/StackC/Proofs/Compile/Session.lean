import StackC.Proofs.Compile.Dump
import StackC.Proofs.Recast.Parse

/-! Sources that are compiled with one set of flags give the same as each of them alone, but for the
routines before the code. -/
namespace StackC

namespace Requirements

/-- The flags set in one or the other. -/
def join (a b : Requirements) : Requirements := ⟨a.lt || b.lt, a.le || b.le, a.ne || b.ne⟩

/-- The flags set in both. -/
def meet (a b : Requirements) : Requirements := ⟨a.lt && b.lt, a.le && b.le, a.ne && b.ne⟩

theorem needs_join (a b : Requirements) (op : BinaryOp) :
    (a.join b).needs op ↔ a.needs op ∨ b.needs op := by
  cases op <;> simp [join, needs]

private theorem needs_of_meet {a b : Requirements} {op : BinaryOp} (h : (a.meet b).needs op) :
    b.needs op := by
  cases op <;> simp_all [meet, needs]

theorem require_join (a b : Requirements) (op : BinaryOp) :
    (a.require op).join b = (a.join b).require op := by
  cases op <;> simp [join, require]

theorem require_meet {b : Requirements} {op : BinaryOp} (h : op ∈ Grammar.flagged → b.needs op)
    (a : Requirements) : (a.require op).meet b = (a.meet b).require op := by
  cases op with
  | lt => simp [meet, require, show b.lt = true from h (by decide)]
  | le => simp [meet, require, show b.le = true from h (by decide)]
  | ne => simp [meet, require, show b.ne = true from h (by decide)]
  | _ => rfl

end Requirements

def BinaryOp.spellings : BinaryOp → List Bytes
  | .lt => [ascii "<", ascii ">"]
  | .le => [ascii "<=", ascii ">="]
  | op => [op.text]

/-- One of the tokens is a spelling of the operator. -/
def Spelled (toks : List Token) (op : BinaryOp) : Bool :=
  toks.any fun t => op.spellings.any t.is

def spelledFlags (toks : List Token) : Requirements :=
  { lt := Spelled toks .lt, le := Spelled toks .le, ne := Spelled toks .ne }

private theorem spelled_of_operator? {toks : List Token} {t : Token} {level : Nat} {op : BinaryOp}
    {swap : Bool} (ht : t ∈ toks) (h : Grammar.operator? level t = some (op, swap)) :
    Spelled toks op := by
  have hs : op.spellings.any t.is := by
    match level with
    | 0 | 1 | 2 | 3 =>
      simp only [Grammar.operator?] at h
      repeat' split at h
      all_goals cases h <;> simp [BinaryOp.spellings, BinaryOp.text, *]
    | n + 4 => cases h
  exact List.any_eq_true.mpr ⟨t, ht, hs⟩

namespace Recast

/-- Flags that were set before. -/
def adding (r : Requirements) : Recast where
  pos := id
  req q := q.join r
  pos_noOffset := rfl

/-- No flags but these. -/
def within (r : Requirements) : Recast where
  pos := id
  req q := q.meet r
  pos_noOffset := rfl

private theorem respects_adding (r : Requirements) (toks : List Token) : (adding r).Respects toks :=
  fun _ _ _ op _ _ req => req.require_join r op

theorem respects_within (toks : List Token) : (within (spelledFlags toks)).Respects toks := by
  intro t ht level op swap ho req
  refine Requirements.require_meet (fun hop => ?_) req
  have hs := spelled_of_operator? ht ho
  simp only [Grammar.flagged, List.mem_cons, List.not_mem_nil, or_false] at hop
  rcases hop with rfl | rfl | rfl <;> exact hs

end Recast

namespace Grammar

/-- A parse on top of flags gives what it gives without them, and those flags. -/
theorem parse_adding (toks : List Token) (r : Requirements) :
    (∃ p, parse toks {} = .ok p ∧ parse toks r = .ok ((Recast.adding r).program p)) ∨
      ∃ h, parse toks {} = .error h ∧ parse toks r = .error { h with req := h.req.join r } := by
  have ht : toks.map (Recast.adding r).token = toks := List.map_id toks
  have hr : (Recast.adding r).req {} = r := rfl
  have twin := twin_parse {} (Recast.respects_adding r toks) (congrArg endOffset ht)
  rw [ht, hr] at twin
  generalize parse toks {} = x at twin
  generalize parse toks r = y at twin
  cases twin with
  | ok h => exact .inl ⟨_, rfl, h ▸ rfl⟩
  | error h => exact .inr ⟨h, rfl, rfl⟩

/-- A parse that stops has set no flag but those of operators among its tokens. -/
theorem spelled_of_halt {toks : List Token} {h : Halt} {op : BinaryOp}
    (hp : parse toks {} = .error h) (hn : h.req.needs op) : Spelled toks op := by
  have ht : toks.map (Recast.within (spelledFlags toks)).token = toks := List.map_id toks
  have hr : (Recast.within (spelledFlags toks)).req {} = {} := rfl
  have twin := twin_parse {} (Recast.respects_within toks) (congrArg endOffset ht)
  rw [ht, hr, hp] at twin
  -- The flags are the same with all but those of the tokens taken away.
  have hreq : h.req = h.req.meet (spelledFlags toks) := congrArg Halt.req twin.halt_eq
  rw [hreq] at hn
  have hs := Requirements.needs_of_meet hn
  cases op with
  | lt | le | ne => exact hs
  | _ => cases hs

end Grammar

/-- The routines of the flags that are set, in the order of their table. -/
def flaggedRoutines (req : Requirements) : List Asm.Instr :=
  ([Asm.Routine.less, Asm.Routine.lessOrEqual, Asm.Routine.notEqual].filter
    fun r => req.needs r.op).flatMap Asm.Routine.code

theorem routines_eq_flagged (req : Requirements) : Lowering.routines req = flaggedRoutines req :=
  rfl

/-- What a session makes of a source on top of the flags before it, against that source alone. -/
structure Shares (before : Requirements) (src : Bytes) (step : SessionStep) : Prop where
  /-- No flag is taken back. -/
  kept : ∀ op, before.needs op → step.req.needs op
  unscanned : ∀ e, Token.scan src = .error e → step.req = before
  /-- A source that is parsed adds the comparisons of its tree. -/
  parsed : ∀ toks p, Token.scan src = .ok toks → Grammar.parse toks before = .ok p →
    ∀ op ∈ Grammar.flagged, (step.req.needs op ↔ before.needs op ∨ p.Uses op)
  /-- A source that is not parsed adds none but those in its text. -/
  halted : ∀ toks h, Token.scan src = .ok toks → Grammar.parse toks before = .error h →
    ∀ op, step.req.needs op → before.needs op ∨ Spelled toks op
  dump : ∀ d, step.dump = some d ↔ (compile .ast src).result = .ok (d ++ [Text.newline])
  failure : ∀ e, step.code = .error e ↔ (compile .asm src).result = .error e
  /-- Behind the routines the code is what it is alone. -/
  code : ∀ code, step.code = .ok code → ∃ alone tail,
    (sessionStep {} src).code = .ok alone ∧
    (compile .asm src).result = .ok (Asm.Instr.listing alone) ∧
    alone = .jump Asm.startLabel :: (flaggedRoutines (sessionStep {} src).req ++ tail) ∧
    code = .jump Asm.startLabel :: (flaggedRoutines step.req ++ tail)

section Step

variable {src : Bytes} {toks : List Token} (before : Requirements)

private theorem shares_of_scan_error {e : SourceError} (hs : Token.scan src = .error e) :
    Shares before src (sessionStep before src) := by
  have hstep : sessionStep before src = { code := .error (.source e), req := before } := by
    unfold sessionStep
    rw [hs]
  have hc (mode : Mode) : (compile mode src).result = .error (.source e) := by
    unfold compile
    rw [hs]
  rw [hstep]
  constructor
  case kept => exact fun op h => h
  case unscanned => exact fun _ _ => rfl
  case parsed => simp [hs]
  case halted => simp [hs]
  case dump => simp [hc]
  case failure => simp [hc]
  case code => simp

private theorem shares_of_halt {h : Grammar.Halt} (hs : Token.scan src = .ok toks)
    (h₀ : Grammar.parse toks {} = .error h)
    (h₁ : Grammar.parse toks before = .error { h with req := h.req.join before }) :
    Shares before src (sessionStep before src) := by
  have hstep : sessionStep before src =
      { code := .error (.source h.error), req := h.req.join before } := by
    unfold sessionStep
    simp only [hs, h₁]
  have hc (mode : Mode) (hm : mode ≠ .tokens) :
      (compile mode src).result = .error (.source h.error) := by
    unfold compile
    simp only [hs, h₀, if_neg hm]
  rw [hstep]
  constructor
  case kept => exact fun op hn => (Requirements.needs_join _ _ op).mpr (.inr hn)
  case unscanned => simp [hs]
  case parsed =>
    intro toks' p hs' hp
    rw [hs, Except.ok.injEq] at hs'
    subst hs'
    rw [h₁] at hp
    cases hp
  case halted =>
    intro toks' h' hs' _ op hn
    rw [hs, Except.ok.injEq] at hs'
    subst hs'
    rcases (Requirements.needs_join _ _ op).mp hn with hn | hn
    · exact .inr (Grammar.spelled_of_halt h₀ hn)
    · exact .inl hn
  case dump => simp [hc .ast (by decide)]
  case failure => simp [hc .asm (by decide)]
  case code => simp

/-- What follows the routines is the same with flags that were set before, and so is the reason why
there is none. -/
theorem program_adding {p : Program} (hp : p.Proper) :
    (∃ tail, Lowering.program p =
        .ok (.jump Asm.startLabel :: (flaggedRoutines p.req ++ tail)) ∧
      Lowering.program ((Recast.adding before).program p) =
        .ok (.jump Asm.startLabel :: (flaggedRoutines (p.req.join before) ++ tail))) ∨
      ∃ e, Lowering.program p = .error e ∧
        Lowering.program ((Recast.adding before).program p) = .error e := by
  have hm : ∀ op, p.req.needs op → (p.req.join before).needs op :=
    fun op h => (Requirements.needs_join _ _ op).mpr (.inl h)
  have alike := Lowering.alike_mainPart (m := Recast.adding before) hp hm
  rw [Lowering.program_eq_mainPart, Lowering.program_eq_mainPart, routines_eq_flagged,
    routines_eq_flagged]
  generalize Lowering.mainPart p = x at alike
  generalize Lowering.mainPart ((Recast.adding before).program p) = y at alike
  cases alike with
  | ok tail => exact .inl ⟨tail, rfl, rfl⟩
  | error e =>
    have he : (Recast.adding before).failure e = e := by cases e <;> rfl
    rw [he]
    exact .inr ⟨e, rfl, rfl⟩

private theorem shares_of_parse {p : Program} (hs : Token.scan src = .ok toks)
    (h₀ : Grammar.parse toks {} = .ok p)
    (h₁ : Grammar.parse toks before = .ok ((Recast.adding before).program p)) :
    Shares before src (sessionStep before src) := by
  obtain ⟨d, hd, hast, hasm⟩ := compile_of_parse hs h₀
  have hstep : sessionStep before src = {
      dump := some d, code := Lowering.program ((Recast.adding before).program p)
      req := p.req.join before } := by
    unfold sessionStep
    simp only [hs, h₁, Recast.dump?_program, hd]
    rfl
  have halone : sessionStep {} src = {
      dump := some d, code := Lowering.program p, req := p.req } := by
    unfold sessionStep
    simp only [hs, h₀, hd]
  have hcode := program_adding before (Grammar.proper_of_parse hs h₀)
  rw [hstep]
  constructor
  case kept => exact fun op hn => (Requirements.needs_join _ _ op).mpr (.inr hn)
  case unscanned => simp [hs]
  case parsed =>
    intro toks' p' hs' hp' op hop
    rw [hs, Except.ok.injEq] at hs'
    subst hs'
    rw [h₁, Except.ok.injEq] at hp'
    subst hp'
    rw [Requirements.needs_join, Recast.uses_program, Grammar.needs_iff_uses hs h₀ hop, or_comm]
  case halted =>
    intro toks' h' hs' hp'
    rw [hs, Except.ok.injEq] at hs'
    subst hs'
    rw [h₁] at hp'
    cases hp'
  case dump =>
    intro d'
    rw [hast]
    simp
  case failure =>
    intro e
    rw [hasm]
    rcases hcode with ⟨tail, hc, hc'⟩ | ⟨e', hc, hc'⟩
    · simp [hc, hc']
    · simp [hc, hc', Except.map]
  case code =>
    intro code hc
    rcases hcode with ⟨tail, hc₀, hc₁⟩ | ⟨e, hc₀, hc₁⟩
    · rw [hc₁, Except.ok.injEq] at hc
      have hlisting : (compile .asm src).result =
          .ok (Asm.Instr.listing
            (.jump Asm.startLabel :: (flaggedRoutines p.req ++ tail))) := by
        rw [hasm, hc₀]
        rfl
      rw [halone]
      exact ⟨_, tail, hc₀, hlisting, rfl, hc.symm⟩
    · rw [hc₁] at hc
      cases hc

end Step

/-- One source of a session. -/
theorem shares_sessionStep (before : Requirements) (src : Bytes) :
    Shares before src (sessionStep before src) := by
  cases hs : Token.scan src with
  | error e => exact shares_of_scan_error before hs
  | ok toks =>
    rcases Grammar.parse_adding toks before with ⟨p, h₀, h₁⟩ | ⟨h, h₀, h₁⟩
    · exact shares_of_parse before hs h₀ h₁
    · exact shares_of_halt before hs h₀ h₁

/-- The flags before each source of a session, and those after the last. -/
def flagsAlong (req : Requirements) (steps : List SessionStep) : List Requirements :=
  req :: steps.map SessionStep.req

/-- Every source of a session, whatever came before it, is compiled as it is alone, but for the
routines before its code. -/
theorem session_shares (req : Requirements) (srcs : List Bytes) :
    (session req srcs).length = srcs.length ∧
      ∀ (i : Nat) (src : Bytes), srcs[i]? = some src → ∃ before step,
        (flagsAlong req (session req srcs))[i]? = some before ∧
        (session req srcs)[i]? = some step ∧ Shares before src step := by
  induction srcs generalizing req with
  | nil => exact ⟨rfl, fun i src h => by simp at h⟩
  | cons first rest ih =>
    obtain ⟨hlen, hrest⟩ := ih (sessionStep req first).req
    refine ⟨congrArg Nat.succ hlen, fun i src h => ?_⟩
    cases i with
    | zero =>
      cases h
      exact ⟨req, sessionStep req first, rfl, rfl, shares_sessionStep req first⟩
    | succ i =>
      obtain ⟨before, step, hb, hs, shares⟩ := hrest i src h
      exact ⟨before, step, hb, hs, shares⟩

/-- The tokens of a source that ends after a comparison. -/
def unendedTokens : List Token :=
  [⟨.punct, 0, ascii "\x7b", 0⟩, ⟨.ident, 1, ascii "a", 0⟩, ⟨.punct, 2, ascii "!=", 0⟩,
    ⟨.ident, 4, ascii "b", 0⟩, .eof 5]

def oneLessTokens : List Token :=
  [⟨.punct, 0, ascii "\x7b", 0⟩, ⟨.ident, 1, ascii "a", 0⟩, ⟨.punct, 2, ascii "<", 0⟩,
    ⟨.ident, 3, ascii "b", 0⟩, ⟨.punct, 4, ascii ";", 0⟩, ⟨.punct, 5, ascii "\x7d", 0⟩, .eof 6]

/-- A source that is not parsed leaves its flag to the next, whose code has the routine of `!=`
behind the one that it has alone. -/
theorem session_shares_unended : ∃ before step alone tail,
    (session {} [ascii "\x7ba!=b", ascii "\x7ba<b;\x7d"])[1]? = some step ∧ before.ne ∧
      Shares before (ascii "\x7ba<b;\x7d") step ∧
      (sessionStep {} (ascii "\x7ba<b;\x7d")).code = .ok alone ∧
      alone = .jump Asm.startLabel :: (Asm.Routine.less.code ++ tail) ∧
      step.code = .ok (.jump Asm.startLabel ::
        (Asm.Routine.less.code ++ (Asm.Routine.notEqual.code ++ tail))) := by
  have hsrc : Token.scan (ascii "\x7ba!=b") = .ok unendedTokens := by decide +kernel
  have hp : Grammar.parse unendedTokens {} =
      .error ⟨⟨.expected (ascii ";"), 5⟩, { ne := true }⟩ := Grammar.parse_of_walk rfl
  have hfirst : (sessionStep {} (ascii "\x7ba!=b")).req = { ne := true } := by
    unfold sessionStep
    simp only [hsrc, hp]
  obtain ⟨before, step, hb, hs, shares⟩ :=
    (session_shares {} [ascii "\x7ba!=b", ascii "\x7ba<b;\x7d"]).2 1 _ rfl
  have hbefore : before = { ne := true } := (Option.some.inj hb).symm.trans hfirst
  have hless : Token.scan (ascii "\x7ba<b;\x7d") = .ok oneLessTokens := by decide +kernel
  have hstep : step = sessionStep { ne := true } (ascii "\x7ba<b;\x7d") := by
    rw [← hfirst]
    exact (Option.some.inj hs).symm
  obtain ⟨p, hparse, hreq, code, hcode⟩ : ∃ p, Grammar.parse oneLessTokens { ne := true } = .ok p ∧
      p.req = { lt := true, ne := true } ∧ ∃ code, Lowering.program p = .ok code :=
    ⟨_, Grammar.parse_of_walk rfl, rfl, _, rfl⟩
  obtain ⟨q, hparse', hreq'⟩ : ∃ q, Grammar.parse oneLessTokens {} = .ok q ∧
      q.req = { lt := true } := ⟨_, Grammar.parse_of_walk rfl, rfl⟩
  have hstep' :
      step = { dump := p.dump?, code := .ok code, req := { lt := true, ne := true } } := by
    rw [hstep, sessionStep, hless]
    simp only [hparse, hreq, hcode]
  have halone : (sessionStep {} (ascii "\x7ba<b;\x7d")).req = { lt := true } := by
    unfold sessionStep
    simp only [hless, hparse', hreq']
  obtain ⟨alone, tail, hok, -, ha, hc⟩ := shares.code code (by rw [hstep'])
  rw [halone] at ha
  rw [hstep'] at hc
  refine ⟨before, step, alone, tail, hs, by rw [hbefore], shares, hok, ha, ?_⟩
  rw [hstep', hc]
  rfl

end StackC
