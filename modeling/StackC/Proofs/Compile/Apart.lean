import StackC.Proofs.Compile.Session
import StackC.Proofs.Compile.Turned
import StackC.Proofs.Lowering.Renumbered
import StackC.Proofs.Reading.Apart
import StackC.Proofs.Recast.Lowering
import StackC.Proofs.Recast.Moved
import StackC.Proofs.Token.Pieces

/-! Functions are compiled apart. The code of a function is what it is in a program without the
other functions, but for the numbers of its labels. -/
namespace StackC

open Grammar StackC.Derivation

def idleMain : Bytes := ascii "\nint main() \x7b return 0; \x7d"

/-- A definition on its own, or before a main function if it is not one. -/
def aloneText (name text : Bytes) : Bytes :=
  if name = Lowering.mainName then text else text ++ idleMain

/-- The text is the definition of the function, and stands at this offset of the source. -/
def Defines (start : Nat) (text : Bytes) (f : Function) : Prop :=
  ∃ toks f' req, Token.scan text = .ok toks ∧
    parse toks {} = .ok { topLevel := false, funcs := [f'], req } ∧
    (Recast.moving start id).function f' = f

/-- The source is read as the program and compiled to the code. -/
structure Builds (src : Bytes) (p : Program) (code : List Asm.Instr) : Prop where
  parsed : ∃ toks, Token.scan src = .ok toks ∧ parse toks {} = .ok p
  lowered : Lowering.program p = .ok code
  compiled : (compile .asm src).result = .ok (Asm.Instr.listing code)

section Reading

private theorem starts_of_function {s s₁ : State} {f : Function} (h : ReadsFunction s f s₁) :
    s.starts (ascii "\x7b") = false := by
  cases h with
  | intro isInt => exact Token.is_eq_false_of_is isInt (by decide)

private theorem functions_of_program {s : State} {p : Program} (h : ReadsProgram s p)
    (ht : p.topLevel = false) : ReadsFunctions [] s p := by
  cases h with
  | topLevel => cases ht
  | functions _ inner => exact inner

/-- The tokens are read as a definition whatever follows them. It is the function so many bytes
before its place, and sets no other flags. -/
def ReadsAlone (n : Nat) (w : List Token) (f : Function) (req : Requirements) : Prop :=
  ∀ u stop, startsElse u = false → ∃ f' s', (Recast.moving n id).function f' = f ∧
    ReadsFunction { ahead := w ++ u, stop, req := {} } f' s' ∧ s'.ahead = u ∧
    ∀ op, s'.req.needs op → req.needs op

/-- A definition that is read behind others is read in the same way at the beginning of a text. -/
theorem readsAlone_of_function {s s₁ : State} {f : Function} (h : ReadsFunction s f s₁) :
    ∃ w, s.ahead = w ++ s₁.ahead ∧
      ∀ n w', w'.map (Recast.moving n id).token = w → ReadsAlone n w' f s₁.req := by
  obtain ⟨w, -, hw, hr⟩ := apart_function h
  refine ⟨w, hw, fun n w' hw' u stop hu => ?_⟩
  let m := Recast.moving n (·.join s.req)
  let a : State := { ahead := w' ++ u, stop, req := {} }
  have hu' : startsElse (u.map m.token) = false := by
    rw [← hu, startsElse, startsElse, List.head?_map, Option.any_map]
    rfl
  obtain ⟨fresh, hr⟩ := hr (u.map m.token) (m.pos stop) [] none hu'
  have hm : m.state a = { ahead := w ++ u.map m.token, stop := m.pos stop, req := s.req } := by
    rw [← hw', ← show m.token = (Recast.moving n id).token from rfl, ← List.map_append]
    rfl
  obtain ⟨h₁, hf⟩ := function_of_reads hr
  have twin := twin_function (m := m) (s := a) fun _ _ _ op _ _ req => req.require_join s.req op
  rw [hm, hf] at twin
  generalize hx : function a = x at twin
  cases twin with
  | @ok q _ same =>
    have hq := readsFunction_of_ok hx
    have hs : { s₁ with ahead := u.map m.token, stop := m.pos stop, fresh } = m.state q.state :=
      same.state
    refine ⟨q.value, q.state, ?_, hq, ?_, fun op ho => ?_⟩
    · have hpos : (Recast.moving n id).pos = m.pos := rfl
      exact (Recast.function_congr hpos q.value).trans same.value.symm
    · -- What is left has as many tokens as what was put behind the definition.
      obtain ⟨v, -, hv, -⟩ := apart_function hq
      have hl := congrArg (fun s => s.ahead.length) hs
      simp only [Recast.state, List.length_map] at hl
      exact List.append_inj_right' hv.symm hl.symm
    · have hreq : s₁.req = q.state.req.join s.req := congrArg State.req hs
      rw [hreq, Requirements.needs_join]
      exact .inl ho

/-- The tokens of the idle main function behind so many bytes. -/
def idleTokens (n : Int) : List Token :=
  [⟨.keyword, 1 + n, ascii "int", 0⟩, ⟨.ident, 5 + n, ascii "main", 0⟩,
    ⟨.punct, 9 + n, ascii "(", 0⟩, ⟨.punct, 10 + n, ascii ")", 0⟩,
    ⟨.punct, 12 + n, ascii "\x7b", 0⟩, ⟨.keyword, 14 + n, ascii "return", 0⟩,
    ⟨.num, 21 + n, ascii "0", 0⟩, ⟨.punct, 22 + n, ascii ";", 0⟩, ⟨.punct, 24 + n, ascii "\x7d", 0⟩]

def idleFunction (n : Int) : Function where
  name := Lowering.mainName
  pos := 5 + n
  locals := []
  body := some { pos := 12 + n, stmts := [.ret (14 + n) (.num (21 + n) 0)] }

private theorem cuts_idleMain (n : Nat) : Token.Cuts n idleMain (idleTokens n) [] := by
  have hscan : Token.scan idleMain = .ok (idleTokens 0 ++ [.eof 25]) := by decide +kernel
  obtain ⟨body, hc, hb⟩ := Token.cuts_of_scan hscan
  obtain ⟨rfl, -⟩ := List.append_inj' hb rfl
  simpa [idleTokens, Token.moved] using hc.moved n

private theorem isBlank_of_idleMain : ∀ b ∈ idleMain.head?, Text.isBlank b := by
  intro b hb
  have hh : idleMain.head? = some Text.newline := rfl
  rw [hh, Option.mem_some_iff] at hb
  subst hb
  rfl

/-- A number is an expression if nothing carries on with it. -/
theorem reads_number {s : State} {t u : Token} {lit : Bytes} (ht : t.kind = .num) (hu : u.is lit)
    (hl : 5 < slack lit) :
    Reads .assign ((s.push u).push t) [.num t.pos t.val]
      (State.push { s with fresh := none } u) := by
  refine reads_of_unary (.operand (noUnary_of_first ?_) (.number ht)) ?_
  · simp [Rule.first, ht]
  · rwa [nextSlack_of_starts (s := State.push { s with fresh := none } u) hu]

private theorem reads_idleMain {s : State} {n : Int} (h : s.ahead = idleTokens n) :
    ReadsFunction s (idleFunction n) { s with ahead := [], locals := [], fresh := none } := by
  obtain ⟨ahead, stop, locals, fresh, req⟩ := s
  obtain rfl : ahead = idleTokens n := h
  let last : Token := ⟨.punct, 24 + n, ascii "\x7d", 0⟩
  let semicolon : Token := ⟨.punct, 22 + n, ascii ";", 0⟩
  let zero : Token := ⟨.num, 21 + n, ascii "0", 0⟩
  let first : Token := ⟨.keyword, 14 + n, ascii "return", 0⟩
  let before : State := { ahead := [last], stop, locals := [], fresh, req }
  let after : State := { ahead := [], stop, locals := [], fresh := none, req }
  have value : Reads .assign ((before.push semicolon).push zero) [.num (21 + n) 0]
      ((after.push last).push semicolon) :=
    have ends : semicolon.is (ascii ";") := rfl
    reads_number (t := zero) rfl ends (by decide)
  have inner : ReadsStmt .block (((before.push semicolon).push zero).push first)
      [.ret (14 + n) (.num (21 + n) 0)] after :=
    .item rfl rfl (.ret (t := first) rfl value rfl) (.endBlock (t := last) rfl)
  exact .intro (s := { ((before.push semicolon).push zero).push first with locals }) rfl
    (by simp : ∀ t ∈ ([] : List Token), t.is (ascii "*")) rfl rfl rfl rfl inner

/-- The tokens at the beginning are those behind so many bytes if they are moved there. -/
theorem map_moving {n : Nat} {text : Bytes} {w : List Token} (h : Token.Cuts n text w []) :
    (w.map (Token.moved ((0 : Nat) - n))).map (Recast.moving n id).token = w := by
  rw [List.map_map]
  refine (List.map_congr_left fun t ht => ?_).trans (List.map_id w)
  obtain ⟨before, after, -, hpos, -⟩ := h.exists_lexeme t ht
  have hp : (Recast.moving n id).pos (t.pos + ((0 : Nat) - n)) = t.pos := by
    rw [Recast.moving_pos n id (by omega)]
    omega
  exact congrArg (fun pos => { t with pos }) hp

/-- The text of a definition, and the tokens that it has on its own. -/
theorem exists_text {src : Bytes} {toks : List Token} {p : Program} {before after : List Function}
    {f : Function} (hsrc : Token.scan src = .ok toks) (hp : parse toks {} = .ok p)
    (ht : p.topLevel = false) (hf : p.funcs = before ++ f :: after) :
    ∃ front text back w, src = front ++ (text ++ back) ∧ Token.Cuts 0 text w [] ∧
      ReadsAlone front.length w f p.req := by
  obtain ⟨body, hcut, rfl⟩ := Token.cuts_of_scan hsrc
  have hb : Token.beforeEnd (body ++ [Token.eof src.length]) = body :=
    Token.beforeEnd_append_end hcut.notEnd rfl
  have hr := functions_of_program (parse_eq_ok_iff.mp hp) ht
  obtain ⟨w₀, s₁, s₂, hw₀, hr, hreq⟩ := exists_reads_of_functions hr hf
  obtain ⟨w, hw, hall⟩ := readsAlone_of_function hr
  rw [initial, hb, hw] at hw₀
  rw [show body = w₀ ++ (w ++ s₂.ahead) from hw₀] at hcut
  obtain ⟨front, tail, rfl, -, hcut⟩ := hcut.split
  obtain ⟨text, back, rfl, hcut, -⟩ := hcut.split
  rw [Nat.zero_add] at hcut
  refine ⟨front, text, back, _, rfl, hcut.moved 0, fun u stop hu => ?_⟩
  obtain ⟨f', s', hf', hs', hu', hn⟩ := hall front.length _ (map_moving hcut) u stop hu
  exact ⟨f', s', hf', hs', hu', fun op ho => hreq op (hn op ho)⟩

/-- The definition before the tokens of another text. -/
theorem ReadsAlone.parse {n : Nat} {text more : Bytes} {w others : List Token} {f : Function}
    {req : Requirements} (h : ReadsAlone n w f req) (hc : Token.Cuts 0 text w [])
    (hm : ∀ b ∈ more.head?, Text.isBlank b) (hmore : Token.Cuts text.length more others [])
    (he : startsElse others = false) :
    ∃ toks f' s', Token.scan (text ++ more) = .ok toks ∧ (Recast.moving n id).function f' = f ∧
      s'.ahead = others ∧ (∀ op, s'.req.needs op → req.needs op) ∧
      ∀ p, ReadsFunctions [f'] s' p → parse toks {} = .ok p := by
  have hcut := hc.append hm (by rwa [Nat.zero_add])
  let toks := w ++ others ++ [Token.eof (text ++ more).length]
  have hb : Token.beforeEnd toks = w ++ others :=
    Token.beforeEnd_append_end hcut.notEnd rfl
  obtain ⟨f', s', hf, hs, hu, hn⟩ := h others (endOffset toks) he
  rw [← hb] at hs
  refine ⟨toks, f', s', Token.scan_of_cuts hcut, hf, hu, hn, fun p hp => ?_⟩
  exact parse_eq_ok_iff.mpr (.functions (starts_of_function hs) (.more hs rfl hp))

end Reading

namespace Lowering

open Asm

section Alone

variable {f f' : Function} {n : Nat}

theorem body_of_emits {req : Requirements} {exit : Bytes} {k m : Nat} {b : Body}
    {inner : List Instr} (entry : Bytes) (hb : f.body = some b)
    (h : Emits { locals := f.locals, req, exit } (.many b.stmts) k inner m) :
    body req entry exit k f = .ok (.label entry :: (inner ++ [Instr.label exit]), m) := by
  have hl : statements _ k b.stmts = .ok (inner, m) := lower_of_emits h
  rw [body, hb]
  exact Outcome.bind_eq_ok.mpr ⟨(inner, m), hl, rfl⟩

/-- A function on its own is compiled to the same code with smaller numbers. -/
theorem emits_alone {req req' : Requirements} {exit : Bytes} {k m : Nat} {b : Body}
    {inner : List Instr} (hm : (Recast.moving n id).function f' = f) (hp : f'.Proper req')
    (hr : ∀ op, req'.needs op → req.needs op) (hexit : raised k exit = exit) (hb : f.body = some b)
    (h : Emits { locals := f.locals, req, exit } (.many b.stmts) k inner m) :
    ∃ b' inner₀ m₀, f'.body = some b' ∧
      Emits { locals := f'.locals, req := req', exit } (.many b'.stmts) 0 inner₀ m₀ ∧
      inner = renumber k inner₀ := by
  have alike := alike_body (m := Recast.moving n fun _ => req) hr hp f'.name exit k
  have hpos : (Recast.moving n fun _ => req).pos = (Recast.moving n id).pos := rfl
  rw [Recast.function_congr hpos, hm, show (Recast.moving n fun _ => req).req req' = req from rfl,
    body_of_emits f'.name hb h] at alike
  generalize hx : body req' f'.name exit k f' = x at alike
  cases alike with
  | ok =>
    obtain ⟨b', inner', hb', he, hc⟩ := body_eq_ok hp hx
    obtain rfl : inner = inner' := by simpa using hc
    rw [← Nat.zero_add k] at he
    obtain ⟨inner₀, m₀, he₀, -, rfl⟩ := emits_below hexit he
    exact ⟨b', inner₀, m₀, hb', he₀, rfl⟩

/-- The program of a function and others that can be compiled behind it. Its segment is that of the
whole program with smaller numbers. -/
theorem segment?_alone {p p' : Program} {before after others : List Function} {code : List Instr}
    (hp : p.Proper) (ht : p.topLevel = false) (h : EmitsProgram p code)
    (hf : p.funcs = before ++ f :: after) (hp' : p'.Proper) (ht' : p'.topLevel = false)
    (hf' : p'.funcs = f' :: others) (hm : (Recast.moving n id).function f' = f)
    (hr : ∀ op, p'.req.needs op → p.req.needs op) (hn : checkNames (f' :: others) = .ok ())
    (ho : ∀ m, ∃ code, functions p'.req m others = .ok code) :
    ∃ code' seg, program p' = .ok code' ∧ segment? f.name code' = some seg ∧
      segment? f.name code = some (renumber (before.flatMap Function.controls).length seg) := by
  obtain ⟨b, inner, m, hb, he, hs⟩ := segment?_of_program hp ht h hf
  have hproper := hp'.functions f' (by simp [hf'])
  obtain ⟨b', inner₀, m₀, hb', he', rfl⟩ :=
    emits_alone hm hproper hr (raised_exitLabel _ f.name) hb he
  have hname : f.name = f'.name := by
    rw [← hm]
    rfl
  rw [hname] at he' hs ⊢
  obtain ⟨rest, hrest⟩ := ho m₀
  obtain ⟨code', hc'⟩ : ∃ code', program p' = .ok code' := by
    simp [program, ht', hn, hf', functions, body_of_emits f'.name hb' he', hrest]
  have hsplit : p'.funcs = [] ++ f' :: others := hf'
  obtain ⟨b₁, inner₁, m₁, hb₁, he₁, hs₁⟩ :=
    segment?_of_program hp' ht' (emits_of_program hp' hc') hsplit
  obtain rfl : b' = b₁ := Option.some.inj (hb'.symm.trans hb₁)
  have hsame : (inner₀, m₀) = (inner₁, m₁) :=
    Except.ok.inj ((lower_of_emits he').symm.trans (lower_of_emits he₁))
  obtain ⟨rfl, rfl⟩ := Prod.mk.inj hsame
  have hd : byte '.' ∉ f'.name := (hp'.named ht' f' (by simp [hf'])).dotless
  refine ⟨code', _, hc', hs₁, ?_⟩
  simp [hs, renumber, Instr.mapLabel, raised_dotless _ hd]

theorem checkNames_of_names {funcs : List Function} (hn : ∀ g ∈ funcs, g.name ∉ reservedNames)
    (hm : (findFunction? funcs mainName).isSome) : checkNames funcs = .ok () := by
  have hnone : (funcs.find? fun g => isReserved g.name) = none :=
    List.find?_eq_none.mpr fun g hg => by rw [isReserved_iff]; exact hn g hg
  rw [checkNames, hnone]
  exact if_pos hm

private theorem functions_idleMain (req : Requirements) (m : Nat) (k : Int) :
    ∃ code, functions req m [idleFunction k] = .ok code := ⟨_, rfl⟩

end Alone

end Lowering

section Builds

variable {p : Program} {code : List Asm.Instr} {before after : List Function} {f : Function}

theorem builds_of_parse {src : Bytes} {toks : List Token} (hsrc : Token.scan src = .ok toks)
    (hp : parse toks {} = .ok p) (hc : Lowering.program p = .ok code) : Builds src p code := by
  obtain ⟨-, -, -, hout⟩ := compile_of_parse hsrc hp
  exact ⟨⟨toks, hsrc, hp⟩, hc, by rw [hout, hc]; rfl⟩

private theorem exists_builds {src out : Bytes} (h : (compile .asm src).result = .ok out) :
    ∃ p code, Builds src p code ∧ Asm.Instr.listing code = out := by
  cases hsrc : Token.scan src with
  | error e => simp [compile, hsrc] at h
  | ok toks =>
    obtain ⟨code, ⟨p, hp, hc⟩, hout⟩ := (compile_asm_iff_assembles hsrc).mp h
    exact ⟨p, code, builds_of_parse hsrc hp hc, hout⟩

/-- The text of a definition and of others behind it. -/
theorem builds_alone {src : Bytes} {toks : List Token} {p' : Program} {others : List Function}
    {f' : Function} {n : Nat} (hp : p.Proper) (ht : p.topLevel = false)
    (hc : Lowering.program p = .ok code) (hf : p.funcs = before ++ f :: after)
    (hsrc : Token.scan src = .ok toks) (hp' : parse toks {} = .ok p') (ht' : p'.topLevel = false)
    (hf' : p'.funcs = f' :: others) (hm : (Recast.moving n id).function f' = f)
    (hr : ∀ op, p'.req.needs op → p.req.needs op) (hn : ∀ g ∈ others, g.name ∉ reservedNames)
    (hmain : (findFunction? (f' :: others) Lowering.mainName).isSome)
    (ho : ∀ m, ∃ code, Lowering.functions p'.req m others = .ok code) :
    ∃ code' seg, Builds src p' code' ∧ Asm.segment? f.name code' = some seg ∧
      Asm.segment? f.name code =
        some (Lowering.renumber (before.flatMap Function.controls).length seg) := by
  have he := Lowering.emits_of_program hp hc
  have hname : f'.name ∉ reservedNames := by
    cases he with
    | topLevel isTop => exact absurd (isTop.symm.trans ht) (by decide)
    | functions _ unreserved =>
      have hu := unreserved f (by simp [hf])
      rwa [← hm] at hu
  have hnames := Lowering.checkNames_of_names (List.forall_mem_cons.mpr ⟨hname, hn⟩) hmain
  obtain ⟨code', seg, hc', hs', hs⟩ := Lowering.segment?_alone hp ht he hf
    (proper_of_parse hsrc hp') ht' hf' hm hr hnames ho
  exact ⟨code', seg, builds_of_parse hsrc hp' hc', hs', hs⟩

end Builds

/-- Each function of a program has the code that it has without the others. All numbers of its
labels are larger by the number of conditionals and loops in the functions before it. -/
theorem segments_apart {src out : Bytes} (hc : (compile .asm src).result = .ok out) :
    ∃ p code, Builds src p code ∧ Asm.Instr.listing code = out ∧ (p.topLevel = false →
      ∀ before f after, p.funcs = before ++ f :: after →
        ∃ front text back p' code' seg, src = front ++ (text ++ back) ∧
          Defines front.length text f ∧ Builds (aloneText f.name text) p' code' ∧
          Asm.segment? f.name code' = some seg ∧
          Asm.segment? f.name code =
            some (Lowering.renumber (before.flatMap Function.controls).length seg)) := by
  obtain ⟨p, code, hb, hout⟩ := exists_builds hc
  refine ⟨p, code, hb, hout, fun ht before f after hf => ?_⟩
  obtain ⟨toks, hsrc, hp⟩ := hb.parsed
  have hproper := proper_of_parse hsrc hp
  obtain ⟨front, text, back, w, rfl, hcut, halone⟩ := exists_text hsrc hp ht hf
  have single : Token.Cuts text.length [] [] [] := .done
  obtain ⟨toks₁, f₁, s₁, hscan, hm, hs, hr, hall⟩ := halone.parse hcut (by simp) single rfl
  rw [List.append_nil] at hscan
  have hp₁ := hall _ (.done hs)
  have hdef : Defines front.length text f := ⟨toks₁, f₁, s₁.req, hscan, hp₁, hm⟩
  by_cases hmain : f.name = Lowering.mainName
  · have hfind : (findFunction? [f₁] Lowering.mainName).isSome := by
      rw [← hmain, ← hm]
      simp [findFunction?, Recast.function]
    obtain ⟨code', seg, hb', hs', hs⟩ := builds_alone hproper ht hb.lowered hf hscan hp₁ rfl rfl hm
      hr (by simp) hfind fun m => ⟨[], rfl⟩
    exact ⟨front, text, back, _, code', seg, rfl, hdef, by rwa [aloneText, if_pos hmain], hs', hs⟩
  · obtain ⟨toks₂, f₂, s₂, hscan, hm, hs, hr, hall⟩ :=
      halone.parse hcut isBlank_of_idleMain (cuts_idleMain text.length) rfl
    have hnew : findFunction? [f₂] Lowering.mainName = none := by
      rw [← hm] at hmain
      simpa [findFunction?, Recast.function] using hmain
    have hfree : (idleFunction text.length).name ∉ reservedNames :=
      show Lowering.mainName ∉ reservedNames by decide
    have hp₂ := hall _ (.more (reads_idleMain hs) hnew (.done rfl))
    obtain ⟨code', seg, hb', hs', hs⟩ := builds_alone hproper ht hb.lowered hf hscan hp₂ rfl rfl hm
      hr (List.forall_mem_singleton.mpr hfree) (by simp [findFunction?, idleFunction])
      fun m => Lowering.functions_idleMain _ m text.length
    exact ⟨front, text, back, _, code', seg, rfl, hdef, by rwa [aloneText, if_neg hmain], hs', hs⟩

def loopFirst : Bytes := ascii "int main()\x7bwhile(0);\x7dint g()\x7bif(0);\x7d"

def loopFirstOther : List Token :=
  [⟨.keyword, 21, ascii "int", 0⟩, ⟨.ident, 25, ascii "g", 0⟩, ⟨.punct, 26, ascii "(", 0⟩,
    ⟨.punct, 27, ascii ")", 0⟩, ⟨.punct, 28, ascii "\x7b", 0⟩, ⟨.keyword, 29, ascii "if", 0⟩,
    ⟨.punct, 31, ascii "(", 0⟩, ⟨.num, 32, ascii "0", 0⟩, ⟨.punct, 33, ascii ")", 0⟩,
    ⟨.punct, 34, ascii ";", 0⟩, ⟨.punct, 35, ascii "\x7d", 0⟩]

def loopFirstTokens : List Token :=
  [⟨.keyword, 0, ascii "int", 0⟩, ⟨.ident, 4, ascii "main", 0⟩, ⟨.punct, 8, ascii "(", 0⟩,
    ⟨.punct, 9, ascii ")", 0⟩, ⟨.punct, 10, ascii "\x7b", 0⟩, ⟨.keyword, 11, ascii "while", 0⟩,
    ⟨.punct, 16, ascii "(", 0⟩, ⟨.num, 17, ascii "0", 0⟩, ⟨.punct, 18, ascii ")", 0⟩,
    ⟨.punct, 19, ascii ";", 0⟩, ⟨.punct, 20, ascii "\x7d", 0⟩] ++ loopFirstOther ++ [.eof 36]

def loopFirstTree : Program where
  topLevel := false
  funcs := [
    { name := ascii "main", pos := 4, body := some {
        pos := 10, stmts := [.loop 11 .absent (.num 17 0) .absent (.block 19 [])] } },
    { name := ascii "g", pos := 25, body := some {
        pos := 28, stmts := [.cond 29 (.num 32 0) (.block 34 []) .absent] } }]
  req := {}

theorem parse_loopFirst : parse loopFirstTokens {} = .ok loopFirstTree := by
  let left (toks : List Token) : State := { ahead := toks, stop := 36, req := {} }
  let semicolon (pos : Int) : Token := ⟨.punct, pos, ascii ";", 0⟩
  let brace (pos : Int) : Token := ⟨.punct, pos, ascii "\x7d", 0⟩
  have value {pos : Int} {u : Token} {rest : List Token} (hu : u.is (ascii ")")) :
      Reads .assign (left (⟨.num, pos, ascii "0", 0⟩ :: u :: rest)) [.num pos 0]
        ((left rest).push u) :=
    reads_number (s := left rest) (t := ⟨.num, pos, ascii "0", 0⟩) rfl hu (by decide)
  have test : ReadsStmt .block (left (loopFirstOther.drop 5))
      [.cond 29 (.num 32 0) (.block 34 []) .absent] (left []) := by
    refine .item rfl rfl (.cond rfl rfl (value rfl) rfl ?_ (.noElse rfl))
      (.endBlock (s := left []) (t := brace 35) rfl)
    exact .empty (s := left [brace 35]) (t := semicolon 34) rfl
  have loop : ReadsStmt .block (left ((Token.beforeEnd loopFirstTokens).drop 5))
      [.loop 11 .absent (.num 17 0) .absent (.block 19 [])] (left loopFirstOther) := by
    refine .item rfl rfl (.whileLoop rfl rfl (value rfl) rfl ?_)
      (.endBlock (s := left loopFirstOther) (t := brace 20) rfl)
    exact .empty (s := left (brace 20 :: loopFirstOther)) (t := semicolon 19) rfl
  have noStars : ∀ t ∈ ([] : List Token), t.is (ascii "*") := by simp
  have first : ReadsFunction (left (Token.beforeEnd loopFirstTokens)) _ (left loopFirstOther) :=
    .intro (s := left ((Token.beforeEnd loopFirstTokens).drop 5)) rfl noStars rfl rfl rfl rfl loop
  have second : ReadsFunction (left loopFirstOther) _ (left []) :=
    .intro (s := left (loopFirstOther.drop 5)) rfl noStars rfl rfl rfl rfl test
  exact parse_eq_ok_iff.mpr (.functions rfl (.more first rfl (.more second rfl (.done rfl))))

/-- Behind one loop, the labels of the other function are numbered from one on. -/
theorem segments_apart_loopFirst : ∃ out p code f, (compile .asm loopFirst).result = .ok out ∧
    Builds loopFirst p code ∧ p.topLevel = false ∧ f ∈ p.funcs ∧ f.name = ascii "g" ∧
    ∃ front text back p' code' seg, loopFirst = front ++ (text ++ back) ∧
      Defines front.length text f ∧ Builds (text ++ idleMain) p' code' ∧
      Asm.segment? f.name code' = some seg ∧
      Asm.segment? f.name code = some (Lowering.renumber 1 seg) := by
  have hsrc : Token.scan loopFirst = .ok loopFirstTokens := by decide +kernel
  obtain ⟨code, hc⟩ : ∃ code, Lowering.program loopFirstTree = .ok code := ⟨_, rfl⟩
  have hout := (compile_asm_iff_assembles hsrc).mpr ⟨code, ⟨_, parse_loopFirst, hc⟩, rfl⟩
  obtain ⟨p, code, hb, -, hall⟩ := segments_apart hout
  obtain ⟨toks, hsrc', hp⟩ := hb.parsed
  obtain rfl : toks = loopFirstTokens := Except.ok.inj (hsrc'.symm.trans hsrc)
  obtain rfl : p = loopFirstTree := Except.ok.inj (hp.symm.trans parse_loopFirst)
  obtain ⟨front, text, back, p', code', seg, hs, hd, hb', hs', hseg⟩ := hall rfl [_] _ [] rfl
  exact ⟨_, _, code, _, hout, hb, rfl, List.mem_of_getElem? (i := 1) rfl, rfl, front, text, back,
    p', code', seg, hs, hd, hb', hs', hseg⟩

end StackC
