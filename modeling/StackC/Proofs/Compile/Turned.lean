import StackC.Proofs.Compile.Dump
import StackC.Proofs.Lowering.Matching
import StackC.Proofs.Reading.TurnedStmt

/-! A comparison in parentheses may be turned around: `A > B` and `B < A` are compiled to the same
code wherever they stand. The locals may come in another order then and have other types. -/
namespace StackC
open StackC.Derivation

/-- The tokens are compiled to this code, on top of flags that are set already. -/
def Assembles (req : Requirements) (toks : List Token) (code : List Asm.Instr) : Prop :=
  ∃ p, Grammar.parse toks req = .ok p ∧ Lowering.program p = .ok code

/-- The compiler writes the code that the tokens of the source are compiled to. -/
theorem compile_asm_iff_assembles {src out : Bytes} {toks : List Token}
    (hsrc : Token.scan src = .ok toks) : (compile .asm src).result = .ok out ↔
      ∃ code, Assembles {} toks code ∧ Asm.Instr.listing code = out := by
  cases hp : Grammar.parse toks {} with
  | error halt => simp [compile, hsrc, hp, Assembles]
  | ok p =>
    obtain ⟨d, -, -, hasm⟩ := compile_of_parse hsrc hp
    rw [hasm, Outcome.map_eq_ok]
    simp [Assembles, hp]

theorem assembles_of_turned {toks toks' : List Token} {req : Requirements} {code : List Asm.Instr}
    (ht : Turned toks toks') (h : Assembles req toks code) : Assembles req toks' code := by
  obtain ⟨p, hp, hc⟩ := h
  obtain ⟨p', hp', hm⟩ := exists_parse_of_turned ht.beforeEnd hp
  exact ⟨p', hp', ((Lowering.same_program hm).ok_iff code).mp hc⟩

section Spelled

variable {toks toks' before after a b : List Token} {t t₁ g g' : Token}

/-- A list that is spelled as a comparison in parentheses has its parts. -/
theorem exists_parts (h : toks.map Token.spelling =
      (before ++ t :: (a ++ g :: (b ++ t₁ :: after))).map Token.spelling) :
    ∃ before' t' a' u b' t₁' after', toks = before' ++ t' :: (a' ++ u :: (b' ++ t₁' :: after')) ∧
      before'.map Token.spelling = before.map Token.spelling ∧ t'.spelling = t.spelling ∧
      a'.map Token.spelling = a.map Token.spelling ∧ u.spelling = g.spelling ∧
      b'.map Token.spelling = b.map Token.spelling ∧ t₁'.spelling = t₁.spelling ∧
      after'.map Token.spelling = after.map Token.spelling := by
  simp only [List.map_append, List.map_cons] at h
  obtain ⟨before', v, rfl, hbefore, h⟩ := List.map_eq_append_iff.mp h
  obtain ⟨t', v, rfl, ht, h⟩ := List.map_eq_cons_iff.mp h
  obtain ⟨a', v, rfl, ha, h⟩ := List.map_eq_append_iff.mp h
  obtain ⟨u, v, rfl, hu, h⟩ := List.map_eq_cons_iff.mp h
  obtain ⟨b', v, rfl, hb, h⟩ := List.map_eq_append_iff.mp h
  obtain ⟨t₁', after', rfl, ht₁, hafter⟩ := List.map_eq_cons_iff.mp h
  exact ⟨_, _, _, _, _, _, _, rfl, hbefore, ht, ha, hu, hb, ht₁, hafter⟩

variable {o o' : List Occurrence} {op : BinaryOp} {swap : Bool}

/-- Lists that are spelled as a comparison and as the turned one. -/
theorem turned_of_spelling (opens : t.is (ascii "(")) (closes : t₁.is (ascii ")"))
    (ha : Derives (.rule .add) a o) (hb : Derives (.rule .add) b o')
    (hg : Grammar.operator? 2 g = some (op, swap)) (hg' : Grammar.operator? 2 g' = some (op, !swap))
    (h : toks.map Token.spelling =
      (before ++ t :: (a ++ g :: (b ++ t₁ :: after))).map Token.spelling)
    (h' : toks'.map Token.spelling =
      (before ++ t :: (b ++ g' :: (a ++ t₁ :: after))).map Token.spelling) :
    Turned toks toks' := by
  obtain ⟨p, t₂, v, u, w, t₃, q, rfl, hp, ht₂, hv, hu, hw, ht₃, hq⟩ := exists_parts h
  obtain ⟨p', t₂', w', u', v', t₃', q', rfl, hp', ht₂', hw', hu', hv', ht₃', hq'⟩ :=
    exists_parts h'
  have opens₂ : t₂.is (ascii "(") := (is_of_spelling ht₂ _).trans opens
  have closes₃ : t₃.is (ascii ")") := (is_of_spelling ht₃ _).trans closes
  have hx := Exchange.intro (derives_of_spelling ha hv.symm) (derives_of_spelling hb hw.symm)
    ((operator?_of_spelling hu 2).trans hg) ((operator?_of_spelling hu' 2).trans hg') closes₃
    (hv.trans hv'.symm) (hw.trans hw'.symm) (ht₃.trans ht₃'.symm)
  have ht := Turned.append (hp.trans hp'.symm)
    (.turn opens₂ (ht₂.trans ht₂'.symm) hx (.of_spelling (hq.trans hq'.symm)))
  simpa only [List.append_assoc, List.cons_append, List.nil_append] using ht

end Spelled

/-- Turning a comparison in parentheses around does not change the code, whatever stands around
it. -/
theorem assembles_iff_reversed (toks toks' before after : List Token) {a b : List Token}
    {t t₁ g g' : Token} {o o' : List Occurrence} (opens : t.is (ascii "("))
    (closes : t₁.is (ascii ")")) (ha : Derives (.rule .add) a o) (hb : Derives (.rule .add) b o')
    (hg : g.is (ascii ">") ∧ g'.is (ascii "<") ∨ g.is (ascii ">=") ∧ g'.is (ascii "<="))
    (h : toks.map Token.spelling =
      (before ++ t :: (a ++ g :: (b ++ t₁ :: after))).map Token.spelling)
    (h' : toks'.map Token.spelling =
      (before ++ t :: (b ++ g' :: (a ++ t₁ :: after))).map Token.spelling) :
    (∀ req code, Assembles req toks code ↔ Assembles req toks' code) ∧
      ∀ src src' out, Token.scan src = .ok toks → Token.scan src' = .ok toks' →
        ((compile .asm src).result = .ok out ↔ (compile .asm src').result = .ok out) := by
  obtain ⟨op, hop, hop'⟩ : ∃ op, Grammar.operator? 2 g = some (op, true) ∧
      Grammar.operator? 2 g' = some (op, false) := by
    rcases hg with ⟨hg, hg'⟩ | ⟨hg, hg'⟩
    · have hn := Token.is_eq_false_of_is hg (b := ascii "<") (by decide)
      have hn' := Token.is_eq_false_of_is hg (b := ascii "<=") (by decide)
      exact ⟨.lt, by simp [Grammar.operator?, hg, hn, hn'], by simp [Grammar.operator?, hg']⟩
    · have hn := Token.is_eq_false_of_is hg (b := ascii "<") (by decide)
      have hn' := Token.is_eq_false_of_is hg (b := ascii "<=") (by decide)
      have hn₁ := Token.is_eq_false_of_is hg (b := ascii ">") (by decide)
      have hn₂ := Token.is_eq_false_of_is hg' (b := ascii "<") (by decide)
      exact ⟨.le, by simp [Grammar.operator?, hg, hn, hn', hn₁],
        by simp [Grammar.operator?, hg', hn₂]⟩
  have same (req : Requirements) (code : List Asm.Instr) :
      Assembles req toks code ↔ Assembles req toks' code :=
    ⟨assembles_of_turned (turned_of_spelling opens closes ha hb hop hop' h h'),
      assembles_of_turned (turned_of_spelling opens closes hb ha hop' hop h' h)⟩
  refine ⟨same, fun src src' out hsrc hsrc' => ?_⟩
  simp only [compile_asm_iff_assembles hsrc, compile_asm_iff_assembles hsrc', same]

/-- The tokens of a block that compares a variable with a difference of two values behind
pointers. -/
def valueFirst : List Token :=
  [⟨.punct, 0, ascii "\x7b", 0⟩, ⟨.keyword, 1, ascii "return", 0⟩, ⟨.punct, 8, ascii "(", 0⟩,
    ⟨.ident, 9, ascii "b", 0⟩, ⟨.punct, 10, ascii ">", 0⟩, ⟨.punct, 11, ascii "*", 0⟩,
    ⟨.ident, 12, ascii "a", 0⟩, ⟨.punct, 13, ascii "-", 0⟩, ⟨.punct, 14, ascii "*", 0⟩,
    ⟨.ident, 15, ascii "b", 0⟩, ⟨.punct, 16, ascii ")", 0⟩, ⟨.punct, 17, ascii ";", 0⟩,
    ⟨.punct, 18, ascii "\x7d", 0⟩, .eof 19]

/-- The tokens of the same block with the comparison turned around. -/
def pointersFirst : List Token :=
  [⟨.punct, 0, ascii "\x7b", 0⟩, ⟨.keyword, 1, ascii "return", 0⟩, ⟨.punct, 8, ascii "(", 0⟩,
    ⟨.punct, 9, ascii "*", 0⟩, ⟨.ident, 10, ascii "a", 0⟩, ⟨.punct, 11, ascii "-", 0⟩,
    ⟨.punct, 12, ascii "*", 0⟩, ⟨.ident, 13, ascii "b", 0⟩, ⟨.punct, 14, ascii "<", 0⟩,
    ⟨.ident, 15, ascii "b", 0⟩, ⟨.punct, 16, ascii ")", 0⟩, ⟨.punct, 17, ascii ";", 0⟩,
    ⟨.punct, 18, ascii "\x7d", 0⟩, .eof 19]

def valueFirstTree : Program where
  topLevel := true
  funcs := [{
    name := [], pos := 0, locals := [⟨ascii "b", .int, 9⟩, ⟨ascii "a", .ptr .int, 12⟩]
    body := some {
      pos := 0
      stmts := [.ret 1 (.binary 10 .lt (.binary 13 .sub (.deref 11 (.var 12 1))
        (.deref 14 (.var 15 0))) (.var 9 0))] } }]
  req := { lt := true }

/-- The locals of the two programs differ in their order and in a type. -/
theorem assembles_iff_reversed_pointers :
    Token.scan (ascii "\x7breturn (b>*a-*b);\x7d") = .ok valueFirst ∧
      Token.scan (ascii "\x7breturn (*a-*b<b);\x7d") = .ok pointersFirst ∧
      Grammar.parse valueFirst {} = .ok valueFirstTree ∧
      (Grammar.parse pointersFirst {}).map (fun p => p.funcs.map Function.locals) =
        .ok [[⟨ascii "a", .ptr .int, 10⟩, ⟨ascii "b", .ptr .int, 13⟩]] ∧
      ∃ code, Assembles {} valueFirst code ∧ Assembles {} pointersFirst code ∧
        (compile .asm (ascii "\x7breturn (*a-*b<b);\x7d")).result =
          .ok (Asm.Instr.listing code) := by
  have hsrc : Token.scan (ascii "\x7breturn (b>*a-*b);\x7d") = .ok valueFirst := by decide +kernel
  have hsrc' : Token.scan (ascii "\x7breturn (*a-*b<b);\x7d") = .ok pointersFirst := by
    decide +kernel
  have hp : Grammar.parse valueFirst {} = .ok valueFirstTree := Grammar.parse_of_walk rfl
  obtain ⟨code, hc⟩ : ∃ code, Lowering.program valueFirstTree = .ok code := ⟨_, rfl⟩
  have name {t : Token} (h : t.kind = .ident) : Derives (.rule .unary) [t] [⟨.used, t.lit⟩] :=
    .rule (.right (.rule (.right (.right (.left (.name h))))))
  have single {a : List Token} {o : List Occurrence} (h : Derives (.rule .unary) a o) :
      Derives (.rule .mul) a o := by
    simpa using Derives.rule (r := .mul) (.seq h .none)
  have deref {s t : Token} (hs : s.is (ascii "*")) (ht : t.kind = .ident) :
      Derives (.rule .unary) [s, t] [⟨.used, t.lit⟩] :=
    .rule (.left (.seq (.right (.right (.left (.lit hs)))) (name ht)))
  have ha := Derives.rule (r := .add)
    (.seq (single (name (t := ⟨.ident, 9, ascii "b", 0⟩) rfl)) .none)
  have hx := single (deref (s := ⟨.punct, 11, ascii "*", 0⟩) (t := ⟨.ident, 12, ascii "a", 0⟩)
    (by decide) rfl)
  have hy := single (deref (s := ⟨.punct, 14, ascii "*", 0⟩) (t := ⟨.ident, 15, ascii "b", 0⟩)
    (by decide) rfl)
  have minus : Derives (.lit "-") [⟨.punct, 13, ascii "-", 0⟩] [] := .lit (by decide)
  have hb := Derives.rule (r := .add) (.seq hx (.more (.seq (.right minus) hy) .none))
  have opens : (⟨.punct, 8, ascii "(", 0⟩ : Token).is (ascii "(") := by decide
  have closes : (⟨.punct, 16, ascii ")", 0⟩ : Token).is (ascii ")") := by decide
  have hg : (⟨.punct, 10, ascii ">", 0⟩ : Token).is (ascii ">") ∧
      (⟨.punct, 14, ascii "<", 0⟩ : Token).is (ascii "<") := by decide
  have hiff := assembles_iff_reversed valueFirst pointersFirst (valueFirst.take 2)
    (valueFirst.drop 11) opens closes ha hb (.inl hg) rfl rfl
  have hcode : Assembles {} valueFirst code := ⟨_, hp, hc⟩
  exact ⟨hsrc, hsrc', hp, Grammar.map_parse_of_walk rfl, code, hcode, (hiff.1 {} code).mp hcode,
    (hiff.2 _ _ _ hsrc hsrc').mp ((compile_asm_iff_assembles hsrc).mpr ⟨code, hcode, rfl⟩)⟩

end StackC
