import StackC.Proofs.Lowering.Matching
import StackC.Proofs.Reading.LoopHeaders
import StackC.Proofs.Reading.TurnedStmt
import StackC.Proofs.Recast.Parse
import StackC.Proofs.Tree.Unambiguous

/-! A `while` loop is a `for` loop: with `for ( ; C ; )` for every header `while ( C )`, a program
is the same up to offsets, and so is its code. -/
namespace StackC
open StackC.Derivation

namespace Grammar

theorem exists_ok_of_twins {m : Recast} {x y z : Except Halt Program} {p : Program}
    (hx : Twin m (fun p q => q = m.program p) x z)
    (hy : Twin m (fun p q => q = m.program p) y z) (h : x = .ok p) :
    ∃ p', y = .ok p' ∧ m.program p' = m.program p := by
  subst h
  cases hx with
  | ok hz =>
    cases hy with
    | ok hz' => exact ⟨_, rfl, hz'.symm.trans hz⟩

theorem starts_state (m : Recast) (s : State) (lit : Bytes) :
    (m.state s).starts lit = s.starts lit := by
  rcases s.ended_or_push with h | ⟨t, s, rfl⟩
  · simp only [State.starts, m.state_ended h, h]
  · rfl

/-- States that differ in offsets only are read as programs that differ in offsets only. -/
theorem exists_readsProgram_of_erase {s s' : State} {p : Program} (h : ReadsProgram s p)
    (hs : Recast.erase.state s = Recast.erase.state s') :
    ∃ p', ReadsProgram s' p' ∧ Recast.erase.program p' = Recast.erase.program p := by
  have respects (toks : List Token) : Recast.erase.Respects toks := fun _ _ _ _ _ _ _ => rfl
  have hl : s.ahead.map Recast.erase.token = s'.ahead.map Recast.erase.token :=
    congrArg State.ahead hs
  cases h with
  | @topLevel s s₁ t stmts opens inner ended =>
    obtain ⟨t', s', rfl⟩ := s'.ended_or_push.resolve_left fun he => by simp [he, State.push] at hl
    have ht : Recast.erase.token t = Recast.erase.token t' := List.head_eq_of_cons_eq hl
    have hs₁ : Recast.erase.state s = Recast.erase.state s' :=
      congrArg (fun u : State => { u with ahead := u.ahead.tail }) hs
    obtain ⟨h₁, hb⟩ := list_eq_ok (run_of_readsStmt inner)
    have hx := twin_topLevel t (respects s.ahead)
    have hy := twin_topLevel t' (respects s'.ahead)
    rw [← hs₁, ← ht] at hy
    obtain ⟨p', hp, he⟩ := exists_ok_of_twins hx hy (by rw [topLevel]; simp [hb, ended]; rfl)
    have opens' : t'.is (ascii "\x7b") :=
      (congrArg (fun t : Token => t.is (ascii "\x7b")) ht).symm.trans opens
    exact ⟨p', readsProgram_of_topLevel opens' hp, he⟩
  | functions notBlock inner =>
    have hx := twin_functions [] s (respects s.ahead)
    have hy := twin_functions [] s' (respects s'.ahead)
    rw [← hs] at hy
    obtain ⟨p', hp, he⟩ := exists_ok_of_twins hx hy (functions_of_reads inner)
    have notBlock' : s'.starts (ascii "\x7b") = false := by
      rw [← starts_state Recast.erase, ← hs, starts_state, notBlock]
    exact ⟨p', .functions notBlock' (readsFunctions_of_ok [] s' hp), he⟩

/-- A parse begins alike on token lists that are spelled alike. -/
theorem erase_state_of_spelling {s : State} {toks : List Token} {req : Requirements}
    (hl : s.locals = []) (hf : s.fresh = none) (hr : s.req = req)
    (h : s.ahead.map Token.spelling = (Token.beforeEnd toks).map Token.spelling) :
    Recast.erase.state s = Recast.erase.state (initial toks req) := by
  have place (w : List Token) : w.map Recast.erase.token =
      (w.map Token.spelling).map fun u => ⟨u.1, SourceError.noOffset, u.2.1, u.2.2⟩ := by
    rw [List.map_map]
    rfl
  have ha : s.ahead.map Recast.erase.token = (Token.beforeEnd toks).map Recast.erase.token := by
    rw [place, h, ← place]
  unfold Recast.state initial
  rw [ha, hl, hf, hr]
  rfl

end Grammar

theorem Token.beforeEnd_of_spelling {toks toks' : List Token}
    (h : toks.map Token.spelling = toks'.map Token.spelling) :
    (beforeEnd toks).map Token.spelling = (beforeEnd toks').map Token.spelling := by
  have cut (w : List Token) : (beforeEnd w).map Token.spelling =
      (w.map Token.spelling).takeWhile fun u => u.1 != .eof := by
    rw [List.takeWhile_map]
    rfl
  rw [cut, h, ← cut]

/-- With `for ( ; C ; )` for every header `while ( C )`, a program that is parsed is parsed as the
same tree, with the same locals and the same flags, and has the same code. -/
theorem parse_whileAsFor {toks toks' : List Token} {req : Requirements} {p : Program}
    (h : Grammar.parse toks req = .ok p)
    (hs : toks'.map Token.spelling = (Token.whileAsFor toks).map Token.spelling) :
    ∃ p', Grammar.parse toks' req = .ok p' ∧
      Recast.erase.program p' = Recast.erase.program p ∧
      (p'.funcs.map fun f => f.locals.map fun v => (v.name, v.type)) =
        (p.funcs.map fun f => f.locals.map fun v => (v.name, v.type)) ∧
      p'.req = p.req ∧
      ∀ code, Lowering.program p = .ok code ↔ Lowering.program p' = .ok code := by
  -- The rewritten tokens are read as the very same program; `toks'` has other offsets than they do.
  have hread := Grammar.readsProgram_forLoops (Grammar.parse_eq_ok_iff.mp h)
  have ha : (Grammar.initial toks req).forLoops.ahead.map Token.spelling =
      (Token.beforeEnd toks').map Token.spelling := by
    rw [Token.beforeEnd_of_spelling hs, Token.whileAsFor, Token.beforeEnd_rewriteFrom]
    rfl
  obtain ⟨p', hread', herase⟩ := Grammar.exists_readsProgram_of_erase hread
    (Grammar.erase_state_of_spelling rfl rfl rfl ha)
  have hp' := Grammar.parse_eq_ok_iff.mpr hread'
  have peers : Peers (Grammar.initial toks req).forLoops (Grammar.initial toks' req) :=
    peers_nil rfl rfl rfl
  obtain ⟨q, hq, hm⟩ := carries_program hread peers (.of_spelling ha)
  have hqp : q = p' := Except.ok.inj ((Grammar.parse_eq_ok_iff.mpr hq).symm.trans hp')
  subst hqp
  have hreq : (Recast.erase.program q).req = (Recast.erase.program p).req :=
    congrArg Program.req herase
  refine ⟨q, hp', herase, ?_, hreq, (Lowering.same_program hm).ok_iff⟩
  have hlocals := congrArg (fun p : Program =>
    p.funcs.map fun f => f.locals.map fun v => (v.name, v.type)) herase
  simpa [Recast.program, Recast.function, Recast.vars, Function.comp_def] using hlocals

/-- The tokens of a loop around a loop, with an `else` behind the inner one. -/
def nestedWhile : List Token :=
  [⟨.punct, 0, ascii "\x7b", 0⟩, ⟨.keyword, 1, ascii "while", 0⟩, ⟨.punct, 6, ascii "(", 0⟩,
    ⟨.punct, 7, ascii "(", 0⟩, ⟨.ident, 8, ascii "a", 0⟩, ⟨.punct, 9, ascii ")", 0⟩,
    ⟨.punct, 10, ascii "<", 0⟩, ⟨.punct, 11, ascii "*", 0⟩, ⟨.ident, 12, ascii "p", 0⟩,
    ⟨.punct, 13, ascii ")", 0⟩, ⟨.keyword, 14, ascii "if", 0⟩, ⟨.punct, 16, ascii "(", 0⟩,
    ⟨.ident, 17, ascii "a", 0⟩, ⟨.punct, 18, ascii ")", 0⟩, ⟨.keyword, 19, ascii "while", 0⟩,
    ⟨.punct, 24, ascii "(", 0⟩, ⟨.ident, 25, ascii "b", 0⟩, ⟨.punct, 26, ascii ")", 0⟩,
    ⟨.punct, 27, ascii ";", 0⟩, ⟨.keyword, 28, ascii "else", 0⟩, ⟨.punct, 32, ascii ";", 0⟩,
    ⟨.punct, 33, ascii "\x7d", 0⟩, .eof 34]

def nestedFor : List Token :=
  [⟨.punct, 0, ascii "\x7b", 0⟩, ⟨.keyword, 1, ascii "for", 0⟩, ⟨.punct, 4, ascii "(", 0⟩,
    ⟨.punct, 5, ascii ";", 0⟩, ⟨.punct, 6, ascii "(", 0⟩, ⟨.ident, 7, ascii "a", 0⟩,
    ⟨.punct, 8, ascii ")", 0⟩, ⟨.punct, 9, ascii "<", 0⟩, ⟨.punct, 10, ascii "*", 0⟩,
    ⟨.ident, 11, ascii "p", 0⟩, ⟨.punct, 12, ascii ";", 0⟩, ⟨.punct, 13, ascii ")", 0⟩,
    ⟨.keyword, 14, ascii "if", 0⟩, ⟨.punct, 16, ascii "(", 0⟩, ⟨.ident, 17, ascii "a", 0⟩,
    ⟨.punct, 18, ascii ")", 0⟩, ⟨.keyword, 19, ascii "for", 0⟩, ⟨.punct, 22, ascii "(", 0⟩,
    ⟨.punct, 23, ascii ";", 0⟩, ⟨.ident, 24, ascii "b", 0⟩, ⟨.punct, 25, ascii ";", 0⟩,
    ⟨.punct, 26, ascii ")", 0⟩, ⟨.punct, 27, ascii ";", 0⟩, ⟨.keyword, 28, ascii "else", 0⟩,
    ⟨.punct, 32, ascii ";", 0⟩, ⟨.punct, 33, ascii "\x7d", 0⟩, .eof 34]

def nestedLocals : List Local :=
  [⟨ascii "a", .int, 8⟩, ⟨ascii "p", .ptr .int, 12⟩, ⟨ascii "b", .int, 25⟩]

def nestedWhileTree : Program where
  topLevel := true
  funcs := [{
    name := [], pos := 0, locals := nestedLocals
    body := some {
      pos := 0
      stmts := [.loop 1 .absent (.binary 10 .lt (.var 8 0) (.deref 11 (.var 12 1))) .absent
        (.cond 14 (.var 17 0) (.loop 19 .absent (.var 25 2) .absent (.block 27 []))
          (.block 32 []))] } }]
  req := { lt := true }

/-- A state behind some of these tokens, with some of the locals. -/
def nestedWhileAt (n known : Nat) (fresh : Option Nat) (lt : Bool) : Grammar.State :=
  { ahead := nestedWhile.dropLast.drop n, stop := 34, locals := nestedLocals.take known, fresh,
    req := { lt } }

section Reading

open Grammar

theorem parse_nestedWhile : parse nestedWhile {} = .ok nestedWhileTree := by
  -- Nested statements are slow to evaluate, so they are read from the inside out.
  have ha : Reads .unary (nestedWhileAt 4 0 none false) [.var 8 0]
      (nestedWhileAt 5 1 (some 0) false) :=
    reads_name (s := nestedWhileAt 5 0 none false) rfl rfl rfl
  have hgroup : Reads .unary (nestedWhileAt 3 0 none false) [.var 8 0]
      (nestedWhileAt 6 1 (some 0) false) :=
    .operand (noUnary_of_first (s := nestedWhileAt 4 0 none false) rfl)
      (@Reads.paren (nestedWhileAt 4 0 none false) (nestedWhileAt 6 1 (some 0) false) _ _ _ rfl
        (reads_of_unary ha (by decide)) rfl)
  have hp : Reads .unary (nestedWhileAt 7 1 (some 0) false) [.deref 11 (.var 12 1)]
      (nestedWhileAt 9 2 (some 1) false) :=
    @Reads.unary (nestedWhileAt 8 1 (some 0) false) _ _ _ _ rfl rfl
      (reads_name (s := nestedWhileAt 9 1 (some 0) false) rfl rfl rfl)
  have less : Reads (.binary 2) (nestedWhileAt 3 0 none false) [.var 8 0]
      ((nestedWhileAt 7 1 (some 0) false).push ⟨.punct, 10, ascii "<", 0⟩) :=
    .level (.level (.tightest hgroup) (.endChain rfl)) (.endChain rfl)
  have more : Reads (.binary 2) (nestedWhileAt 7 1 (some 0) false) [.deref 11 (.var 12 1)]
      (nestedWhileAt 9 2 (some 1) false) :=
    .level (.level (.tightest hp) (.endChain rfl)) (.endChain rfl)
  have test : Reads .assign (nestedWhileAt 3 0 none false)
      [.binary 10 .lt (.var 8 0) (.deref 11 (.var 12 1))] (nestedWhileAt 9 2 (some 1) true) :=
    reads_of_operands less rfl more rfl
  have inner : ReadsStmt .stmt (nestedWhileAt 14 2 none true)
      [.loop 19 .absent (.var 25 2) .absent (.block 27 [])]
      (nestedWhileAt 19 3 (some 2) true) :=
    @ReadsStmt.whileLoop (nestedWhileAt 16 2 none true)
      (nestedWhileAt 18 3 (some 2) true) _ _ _ _ _ _ rfl rfl
      (reads_of_unary (reads_name (s := nestedWhileAt 17 2 none true) rfl rfl rfl) (by decide))
      rfl
      (.empty (s := nestedWhileAt 19 3 (some 2) true) rfl)
  have body : ReadsStmt .stmt (nestedWhileAt 10 2 (some 1) true)
      [.cond 14 (.var 17 0) (.loop 19 .absent (.var 25 2) .absent (.block 27 [])) (.block 32 [])]
      (nestedWhileAt 21 3 (some 2) true) :=
    @ReadsStmt.cond (nestedWhileAt 12 2 (some 1) true) (nestedWhileAt 14 2 none true)
      _ _ _ _ _ _ _ _ rfl rfl
      (reads_of_unary (reads_name (s := nestedWhileAt 13 2 (some 1) true) rfl rfl rfl) (by decide))
      rfl
      inner (.orElse (s := nestedWhileAt 20 3 (some 2) true) rfl
        (.empty (s := nestedWhileAt 21 3 (some 2) true) rfl))
  have outer := @ReadsStmt.whileLoop (nestedWhileAt 3 0 none false)
    (nestedWhileAt 10 2 (some 1) true) _ ⟨.keyword, 1, ascii "while", 0⟩
    ⟨.punct, 6, ascii "(", 0⟩ _ _ _ rfl rfl test rfl body
  have block : ReadsStmt .block (nestedWhileAt 1 0 none false) _
      (nestedWhileAt 22 3 (some 2) true) :=
    .item rfl rfl outer (.endBlock (s := nestedWhileAt 22 3 (some 2) true) rfl)
  exact parse_eq_ok_iff.mpr (.topLevel (s := nestedWhileAt 1 0 none false)
    (t := ⟨.punct, 0, ascii "\x7b", 0⟩) rfl block rfl)

end Reading

/-- The header that is rewritten first has parentheses of its own. -/
theorem parse_whileAsFor_nested :
    Token.scan (ascii "\x7bwhile((a)<*p)if(a)while(b);else;\x7d") = .ok nestedWhile ∧
      Token.scan (ascii "\x7bfor(;(a)<*p;)if(a)for(;b;);else;\x7d") = .ok nestedFor ∧
      Grammar.parse nestedWhile {} = .ok nestedWhileTree ∧
      ∃ p' code, Grammar.parse nestedFor {} = .ok p' ∧
        Recast.erase.program p' = Recast.erase.program nestedWhileTree ∧
        (p'.funcs.map fun f => f.locals.map fun v => (v.name, v.type)) =
          [[(ascii "a", .int), (ascii "p", .ptr .int), (ascii "b", .int)]] ∧
        p'.req = { lt := true } ∧
        Lowering.program nestedWhileTree = .ok code ∧ Lowering.program p' = .ok code := by
  have hs : nestedFor.map Token.spelling = (Token.whileAsFor nestedWhile).map Token.spelling := by
    decide +kernel
  obtain ⟨code, hc⟩ : ∃ code, Lowering.program nestedWhileTree = .ok code := ⟨_, rfl⟩
  obtain ⟨p', hp', herase, hlocals, hreq, hcode⟩ := parse_whileAsFor parse_nestedWhile hs
  exact ⟨by decide +kernel, by decide +kernel, parse_nestedWhile, p', code, hp', herase, hlocals,
    hreq, hc, (hcode code).mp hc⟩

end StackC
