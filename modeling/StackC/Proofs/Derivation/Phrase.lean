import StackC.Token.Basic

/-! The grammar of the language in extended Backus-Naur form, the token lists that it derives, and
the tokens that they begin with. -/
namespace StackC.Derivation

inductive Role
  /-- The name of a function where it is defined. -/
  | function
  /-- A local where it is declared. -/
  | declared
  /-- A local where it is used. -/
  | used
  /-- The name of a function where it is called. -/
  | callee
  deriving DecidableEq, Repr

/-- A name in a token list, and its part. -/
structure Occurrence where
  role : Role
  name : Bytes
  deriving DecidableEq, Repr

inductive Rule
  /-- A program that is a single block. -/
  | topLevel
  /-- A program that is a list of functions. -/
  | functions
  | function
  | block
  | declaration
  | declarator
  | stmt
  | exprStmt
  | expr
  | assign
  | equality
  | relational
  | add
  | mul
  | unary
  | primary
  deriving DecidableEq, Repr

/-- What may stand on the right-hand side of a rule. -/
inductive Phrase
  | empty
  /-- A punctuator or keyword. -/
  | lit (text : String)
  | name (role : Role)
  | number
  | endMark
  | rule (r : Rule)
  | seq (a b : Phrase)
  | alt (a b : Phrase)
  | many (a : Phrase)
  deriving DecidableEq, Repr

namespace Phrase

def seqs : List Phrase → Phrase
  | [] => empty
  | [a] => a
  | a :: as => seq a (seqs as)

def opt (a : Phrase) : Phrase := alt a empty

def oneOf : String → List String → Phrase
  | text, [] => lit text
  | text, more :: texts => alt (lit text) (oneOf more texts)

/-- Operands with operators between them. -/
def chain (operand operator : Phrase) : Phrase := seq operand (many (seq operator operand))

end Phrase

namespace Rule
open Phrase

def body : Rule → Phrase
  | topLevel => seqs [lit "\x7b", rule block, endMark]
  | functions => seqs [many (rule function), endMark]
  | function =>
    seqs [lit "int", many (lit "*"), name .function, lit "(", lit ")", lit "\x7b", rule block]
  | block => seqs [many (alt (rule declaration) (rule stmt)), lit "\x7d"]
  | declaration =>
    seqs [lit "int", rule declarator, many (seqs [lit ",", rule declarator]), lit ";"]
  | declarator => seqs [many (lit "*"), name .declared, opt (seqs [lit "=", rule assign])]
  | stmt =>
    alt (seqs [lit "return", rule expr, lit ";"]) <|
    alt (seqs [lit "if", lit "(", rule expr, lit ")", rule stmt,
      opt (seqs [lit "else", rule stmt])]) <|
    alt (seqs [lit "for", lit "(", rule exprStmt, opt (rule expr), lit ";", opt (rule expr),
      lit ")", rule stmt]) <|
    alt (seqs [lit "while", lit "(", rule expr, lit ")", rule stmt]) <|
    alt (seqs [lit "\x7b", rule block]) (rule exprStmt)
  | exprStmt => seqs [opt (rule expr), lit ";"]
  | expr => rule assign
  | assign => seqs [rule equality, opt (seqs [lit "=", rule equality])]
  | equality => chain (rule relational) (oneOf "==" ["!="])
  | relational => chain (rule add) (oneOf "<" ["<=", ">", ">="])
  | add => chain (rule mul) (oneOf "+" ["-"])
  | mul => chain (rule unary) (oneOf "*" ["/"])
  | unary => alt (seqs [oneOf "+" ["-", "*", "&"], rule unary]) (rule primary)
  | primary =>
    alt (seqs [lit "(", rule expr, lit ")"]) <|
    alt (seqs [name .callee, lit "(",
      opt (seqs [rule assign, many (seqs [lit ",", rule assign])]), lit ")"]) <|
    alt (name .used) number

end Rule

/-- The phrase derives the token list, in which these names occur in this order. -/
inductive Derives : Phrase → List Token → List Occurrence → Prop
  | empty : Derives .empty [] []
  | lit {text : String} {t : Token} (h : t.is (ascii text)) : Derives (.lit text) [t] []
  | name {role : Role} {t : Token} (h : t.kind = .ident) :
      Derives (.name role) [t] [⟨role, t.lit⟩]
  | number {t : Token} (h : t.kind = .num) : Derives .number [t] []
  | endMark {t : Token} (h : t.kind = .eof) : Derives .endMark [t] []
  | rule {r : Rule} {w : List Token} {o : List Occurrence} (h : Derives r.body w o) :
      Derives (.rule r) w o
  | seq {a b : Phrase} {v w : List Token} {o p : List Occurrence} (ha : Derives a v o)
      (hb : Derives b w p) : Derives (.seq a b) (v ++ w) (o ++ p)
  | left {a b : Phrase} {w : List Token} {o : List Occurrence} (h : Derives a w o) :
      Derives (.alt a b) w o
  | right {a b : Phrase} {w : List Token} {o : List Occurrence} (h : Derives b w o) :
      Derives (.alt a b) w o
  | none {a : Phrase} : Derives (.many a) [] []
  | more {a : Phrase} {v w : List Token} {o p : List Occurrence} (ha : Derives a v o)
      (h : Derives (.many a) w p) : Derives (.many a) (v ++ w) (o ++ p)

section Inversion

variable {a b : Phrase} {r : Rule} {role : Role} {text : String} {w : List Token}
  {o : List Occurrence}

@[simp] theorem derives_empty : Derives .empty w o ↔ w = [] ∧ o = [] := by
  constructor
  · intro h
    cases h
    exact ⟨rfl, rfl⟩
  · rintro ⟨rfl, rfl⟩
    exact .empty

@[simp] theorem derives_lit :
    Derives (.lit text) w o ↔ ∃ t : Token, t.is (ascii text) ∧ w = [t] ∧ o = [] := by
  constructor
  · intro h
    cases h with
    | lit h => exact ⟨_, h, rfl, rfl⟩
  · rintro ⟨t, h, rfl, rfl⟩
    exact .lit h

@[simp] theorem derives_name : Derives (.name role) w o ↔
    ∃ t : Token, t.kind = .ident ∧ w = [t] ∧ o = [⟨role, t.lit⟩] := by
  constructor
  · intro h
    cases h with
    | name h => exact ⟨_, h, rfl, rfl⟩
  · rintro ⟨t, h, rfl, rfl⟩
    exact .name h

@[simp] theorem derives_number :
    Derives .number w o ↔ ∃ t : Token, t.kind = .num ∧ w = [t] ∧ o = [] := by
  constructor
  · intro h
    cases h with
    | number h => exact ⟨_, h, rfl, rfl⟩
  · rintro ⟨t, h, rfl, rfl⟩
    exact .number h

@[simp] theorem derives_endMark :
    Derives .endMark w o ↔ ∃ t : Token, t.kind = .eof ∧ w = [t] ∧ o = [] := by
  constructor
  · intro h
    cases h with
    | endMark h => exact ⟨_, h, rfl, rfl⟩
  · rintro ⟨t, h, rfl, rfl⟩
    exact .endMark h

theorem derives_rule : Derives (.rule r) w o ↔ Derives r.body w o := by
  constructor
  · intro h
    cases h with
    | rule h => exact h
  · exact .rule

@[simp] theorem derives_seq : Derives (.seq a b) w o ↔
    ∃ v o₁, Derives a v o₁ ∧ ∃ v' o₂, Derives b v' o₂ ∧ w = v ++ v' ∧ o = o₁ ++ o₂ := by
  constructor
  · intro h
    cases h with
    | seq ha hb => exact ⟨_, _, ha, _, _, hb, rfl, rfl⟩
  · rintro ⟨v, o₁, ha, v', o₂, hb, rfl, rfl⟩
    exact .seq ha hb

theorem derives_seq_assoc {c : Phrase} :
    Derives (.seq a (.seq b c)) w o ↔ Derives (.seq (.seq a b) c) w o := by
  constructor
  · intro h
    obtain ⟨v, o₁, ha, _, _, hbc, rfl, rfl⟩ := derives_seq.mp h
    obtain ⟨v₁, o₂, hb, v₂, o₃, hc, rfl, rfl⟩ := derives_seq.mp hbc
    simpa only [List.append_assoc] using (ha.seq hb).seq hc
  · intro h
    obtain ⟨_, _, hab, v₂, o₃, hc, rfl, rfl⟩ := derives_seq.mp h
    obtain ⟨v, o₁, ha, v₁, o₂, hb, rfl, rfl⟩ := derives_seq.mp hab
    simpa only [List.append_assoc] using ha.seq (hb.seq hc)

@[simp] theorem derives_alt : Derives (.alt a b) w o ↔ Derives a w o ∨ Derives b w o := by
  constructor
  · intro h
    cases h with
    | left h => exact .inl h
    | right h => exact .inr h
  · rintro (h | h)
    · exact .left h
    · exact .right h

@[simp] theorem derives_opt : Derives (.opt a) w o ↔ Derives a w o ∨ (w = [] ∧ o = []) := by
  simp [Phrase.opt]

theorem derives_many : Derives (.many a) w o ↔ (w = [] ∧ o = []) ∨
    ∃ v o₁, Derives a v o₁ ∧ ∃ v' o₂, Derives (.many a) v' o₂ ∧ w = v ++ v' ∧ o = o₁ ++ o₂ := by
  constructor
  · intro h
    cases h with
    | none => exact .inl ⟨rfl, rfl⟩
    | more ha h => exact .inr ⟨_, _, ha, _, _, h, rfl, rfl⟩
  · rintro (⟨rfl, rfl⟩ | ⟨v, o₁, ha, v', o₂, h, rfl, rfl⟩)
    · exact .none
    · exact .more ha h

theorem derives_stars : Derives (.many (.lit "*")) w o ↔ (∀ t ∈ w, t.is (ascii "*")) ∧ o = [] := by
  constructor
  · intro h
    generalize ha : Phrase.many (.lit "*") = a at h
    induction h with
    | none => simp
    | more hs h ihs ih =>
      cases ha
      obtain ⟨t, ht, rfl, rfl⟩ := derives_lit.mp hs
      obtain ⟨hw, rfl⟩ := ih rfl
      simpa [ht] using hw
    | _ => cases ha
  · rintro ⟨h, rfl⟩
    induction w with
    | nil => exact .none
    | cons t w ih =>
      rw [List.forall_mem_cons] at h
      exact .more (.lit h.1) (ih h.2)

end Inversion

/-- The phrase derives the empty list. No rule does. -/
def Phrase.nullable : Phrase → Bool
  | .empty | .many _ => true
  | .lit _ | .name _ | .number | .endMark | .rule _ => false
  | .seq a b => a.nullable && b.nullable
  | .alt a b => a.nullable || b.nullable

theorem ne_nil_of_derives {a : Phrase} {w : List Token} {o : List Occurrence}
    (h : Derives a w o) (hn : a.nullable = false) : w ≠ [] := by
  induction h with
  | empty | none | more => cases hn
  | lit | name | number | endMark => simp
  | @rule r w o h ih => exact ih (by cases r <;> rfl)
  | seq ha hb iha ihb =>
    simp only [Phrase.nullable, Bool.and_eq_false_iff] at hn
    rcases hn with hn | hn
    · simp [iha hn]
    · simp [ihb hn]
  | left h ih =>
    simp only [Phrase.nullable, Bool.or_eq_false_iff] at hn
    exact ih hn.1
  | right h ih =>
    simp only [Phrase.nullable, Bool.or_eq_false_iff] at hn
    exact ih hn.2

/-- The phrase defines no function. -/
def Phrase.inner : Phrase → Bool
  | .empty | .lit _ | .number | .endMark => true
  | .name role => role != .function
  | .rule r => r != .functions && r != .function
  | .seq a b | .alt a b => a.inner && b.inner
  | .many a => a.inner

theorem role_ne_function {a : Phrase} {w : List Token} {o : List Occurrence}
    (h : Derives a w o) (hi : a.inner) : ∀ x ∈ o, x.role ≠ .function := by
  induction h with
  | empty | lit | number | endMark | none => simp
  | name h =>
    simp only [Phrase.inner, bne_iff_ne] at hi
    simpa using hi
  | @rule r w o h ih =>
    have hb : r.body.inner := by
      cases r with
      | functions | function => cases hi
      | _ => rfl
    exact ih hb
  | seq ha hb iha ihb =>
    simp only [Phrase.inner, Bool.and_eq_true] at hi
    simpa only [List.forall_mem_append] using ⟨iha hi.1, ihb hi.2⟩
  | left h ih =>
    simp only [Phrase.inner, Bool.and_eq_true] at hi
    exact ih hi.1
  | right h ih =>
    simp only [Phrase.inner, Bool.and_eq_true] at hi
    exact ih hi.2
  | more ha h iha ih => simpa only [List.forall_mem_append] using ⟨iha hi, ih hi⟩

def beginsExpr (t : Token) : Bool :=
  t.kind == .ident || t.kind == .num ||
    [ascii "(", ascii "+", ascii "-", ascii "*", ascii "&"].any t.is

def beginsStmt (t : Token) : Bool :=
  beginsExpr t || [ascii "return", ascii "if", ascii "for", ascii "while", ascii "\x7b",
    ascii ";"].any t.is

def Rule.first (t : Token) : Rule → Bool
  | topLevel => t.is (ascii "\x7b")
  | functions => t.is (ascii "int") || t.kind == .eof
  | function | declaration => t.is (ascii "int")
  | block => beginsStmt t || t.is (ascii "int") || t.is (ascii "\x7d")
  | declarator => t.is (ascii "*") || t.kind == .ident
  | stmt => beginsStmt t
  | exprStmt => beginsExpr t || t.is (ascii ";")
  | expr | assign | equality | relational | add | mul | unary => beginsExpr t
  | primary => t.is (ascii "(") || t.kind == .ident || t.kind == .num

def Phrase.first (t : Token) : Phrase → Bool
  | .empty => false
  | .lit text => t.is (ascii text)
  | .name _ => t.kind == .ident
  | .number => t.kind == .num
  | .endMark => t.kind == .eof
  | .rule r => r.first t
  | .seq a b => a.first t || (a.nullable && b.first t)
  | .alt a b => a.first t || b.first t
  | .many a => a.first t

theorem Rule.first_of_body {t : Token} (r : Rule) (h : r.body.first t) : r.first t := by
  cases r <;>
    simp [Rule.body, Phrase.seqs, Phrase.opt, Phrase.oneOf, Phrase.chain, Phrase.first,
      Phrase.nullable, Rule.first, beginsStmt, beginsExpr] at h ⊢ <;>
    grind

theorem first_of_derives {a : Phrase} {t : Token} {w : List Token} {o : List Occurrence}
    (h : Derives a (t :: w) o) : a.first t := by
  generalize hv : t :: w = v at h
  induction h generalizing w with
  | empty | none => cases hv
  | lit h => cases hv; exact h
  | name h | number h | endMark h => cases hv; simp [Phrase.first, h]
  | rule h ih => exact Rule.first_of_body _ (ih hv)
  | @seq a b v v' o p ha hb iha ihb =>
    cases v with
    | nil =>
      cases hn : a.nullable with
      | false => exact absurd rfl (ne_nil_of_derives ha hn)
      | true => simp [Phrase.first, hn, ihb hv]
    | cons t' v =>
      cases hv
      simp [Phrase.first, iha rfl]
  | left h ih => simp [Phrase.first, ih hv]
  | right h ih => simp [Phrase.first, ih hv]
  | @more a v v' o p ha h iha ih =>
    cases v with
    | nil => exact ih hv
    | cons t' v =>
      cases hv
      exact iha rfl

end StackC.Derivation
