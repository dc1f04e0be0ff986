import StackC.Proofs.Lowering.WellFormed
import StackC.Proofs.Text.Plain

/-! The code of a function, from its label to its return. What stands before the function shows only
in the numbers of its labels, and all of them are larger by the same amount. -/
namespace StackC

namespace Text

/-- A number is the value of its digits. -/
theorem digitsValue_decimalNat (n : Nat) : digitsValue (decimalNat n) = n := by
  have hbyte : ∀ b : UInt8, (Char.ofNat b.toNat).isDigit → (Char.ofNat b.toNat).toNat = b.toNat :=
    forall_byte (by decide +kernel)
  calc digitsValue (decimalNat n) = Nat.ofDigitChars 10 (Nat.toDigits 10 n) 0 := by
        rw [digitsValue, decimalNat, List.foldl_map, Nat.ofDigitChars]
        refine List.foldl_ext _ _ _ fun v c hc => ?_
        have hd := Nat.isDigit_of_mem_toDigits (by decide) (by decide) hc
        have hb := hbyte (byte c) (by rwa [ofNat_byte hd])
        rw [ofNat_byte hd] at hb
        rw [← hb]
        rfl
    _ = n := Nat.ofDigitChars_toDigits (by decide) (by decide)

end Text

namespace Asm

/-- The instruction with another label in the place of the one that it names. -/
def Instr.mapLabel (f : Bytes → Bytes) : Instr → Instr
  | label l => label (f l)
  | jump l => jump (f l)
  | jumpZero l => jumpZero (f l)
  | jumpNegative l => jumpNegative (f l)
  | call l => call (f l)
  | i => i

/-- The code from a label up to the first return behind it. -/
def segment? (l : Bytes) (code : List Instr) : Option (List Instr) := do
  let rest ← behind l code
  if .ret ∈ rest then some (.label l :: (rest.takeWhile (· != .ret) ++ [.ret])) else none

private theorem segment?_of_suffix {l : Bytes} {code before inner after : List Instr}
    (hd : (labels code).Nodup)
    (hs : before ++ Instr.label l :: (inner ++ Instr.ret :: after) <:+ code)
    (hr : inner.any Instr.isEnd = false) :
    segment? l code = some (.label l :: (inner ++ [.ret])) := by
  have hne : ∀ i ∈ inner, (i != Instr.ret) = true := by
    intro i hi
    rw [bne_iff_ne]
    rintro rfl
    exact List.any_eq_false.mp hr _ hi rfl
  have ht : (inner ++ Instr.ret :: after).takeWhile (· != .ret) = inner := by
    rw [List.takeWhile_append_of_pos hne, List.takeWhile_cons]
    simp
  rw [segment?, behind_of_suffix hd hs]
  simp [ht]

end Asm

namespace Lowering

open Asm

/-- The label with a number that is so much larger, if it has a number. -/
def raised (k : Nat) (l : Bytes) : Bytes :=
  match labelKinds.find? (·.isPrefixOf l) with
  | some kind => kind ++ Text.decimalNat (Text.digitsValue (l.drop kind.length) + k)
  | none => l

/-- The code with larger numbers. -/
def renumber (k : Nat) (code : List Instr) : List Instr := code.map (Instr.mapLabel (raised k))

section Raised

variable (k n : Nat)

theorem raised_numbered {kind : Bytes}
    (h : labelKinds.find? (·.isPrefixOf (kind ++ Text.decimalNat n)) = some kind) :
    raised k (kind ++ Text.decimalNat n) = kind ++ Text.decimalNat (n + k) := by
  simp only [raised, h, List.drop_left, Text.digitsValue_decimalNat]

@[simp] theorem raised_elseLabel : raised k (elseLabel n) = elseLabel (n + k) :=
  raised_numbered k n rfl

@[simp] theorem raised_beginLabel : raised k (beginLabel n) = beginLabel (n + k) :=
  raised_numbered k n rfl

@[simp] theorem raised_endLabel : raised k (endLabel n) = endLabel (n + k) :=
  raised_numbered k n rfl

@[simp] theorem raised_exitLabel (name : Bytes) : raised k (exitLabel name) = exitLabel name := rfl

theorem raised_dotless {l : Bytes} (h : byte '.' ∉ l) : raised k l = l := by
  have hk : labelKinds.find? (·.isPrefixOf l) = none := by
    have hd : ∀ kind ∈ labelKinds, byte '.' ∈ kind := by decide
    refine List.find?_eq_none.mpr fun kind hm hp => h ?_
    exact (List.isPrefixOf_iff_prefix.mp hp).subset (hd kind hm)
  rw [raised, hk]

theorem renumber_plain {code : List Instr} (h : code.all Instr.isPlain) :
    renumber k code = code := by
  refine (List.map_congr_left fun i hi => ?_).trans (List.map_id code)
  have hp := List.all_eq_true.mp h i hi
  cases i with
  | call l =>
    have hd : byte '.' ∉ l := by simpa [Instr.isPlain] using hp
    exact congrArg Instr.call (raised_dotless k hd)
  | label | jump | jumpZero | jumpNegative => cases hp
  | _ => rfl

@[simp] theorem renumber_append (a b : List Instr) :
    renumber k (a ++ b) = renumber k a ++ renumber k b := List.map_append

private theorem renumber_condCode (t a b : List Instr) : renumber k (condCode n t a b) =
    condCode (n + k) (renumber k t) (renumber k a) (renumber k b) := by
  simp [condCode, renumber, Instr.mapLabel]

private theorem renumber_loopCode (i t b s : List Instr) : renumber k (loopCode n i t b s) =
    loopCode (n + k) (renumber k i) (renumber k t) (renumber k b) (renumber k s) := by
  simp [loopCode, renumber, Instr.mapLabel]

end Raised

variable {c : Context} {k : Nat}

/-- A loop is left at the end with its own number. -/
theorem loopTest_below {n : Nat} {test : Expr} {code : List Instr}
    (hp : test.isAbsent = false → test.Proper c.locals.length c.req)
    (h : loopTest c (endLabel (n + k)) test = .ok code) :
    ∃ code₀, loopTest c (endLabel n) test = .ok code₀ ∧ code = renumber k code₀ := by
  rcases loopTest_cases h with ⟨ha, rfl⟩ | ⟨ha, a, hv, rfl⟩
  · exact ⟨[], by rw [loopTest, ha, if_pos rfl], rfl⟩
  · refine ⟨a ++ [.jumpZero (endLabel n)], by simp [loopTest, ha, hv], ?_⟩
    rw [renumber_append, renumber_plain k (plain_of_value (hp ha) hv)]
    simp [renumber, Instr.mapLabel]

/-- Code behind other conditionals and loops is the code that would stand there without them, with
larger numbers. -/
theorem emits_below (hc : raised k c.exit = c.exit) {piece : Piece} {n m : Nat} {code : List Instr}
    (h : Emits c piece (n + k) code m) :
    ∃ code₀ m₀, Emits c piece n code₀ m₀ ∧ m = m₀ + k ∧ code = renumber k code₀ := by
  generalize hn : n + k = n' at h
  induction h generalizing n with
  | nil => exact ⟨[], n, .nil, hn.symm, rfl⟩
  | cons first rest ih₁ ih₂ =>
    obtain ⟨a, n₁, ha, rfl, rfl⟩ := ih₁ hn
    obtain ⟨b, m, hb, rfl, rfl⟩ := ih₂ rfl
    exact ⟨a ++ b, m, .cons ha hb, rfl, (renumber_append k a b).symm⟩
  | block inner ih =>
    obtain ⟨a, m, ha, rfl, rfl⟩ := ih hn
    exact ⟨a, m, .block ha, rfl, rfl⟩
  | @cond n' n₁ m pos test yes no t a b proper tested first second ih₁ ih₂ =>
    have hn : n + 1 + k = n' + 1 := by omega
    obtain ⟨a, n₁, ha, rfl, rfl⟩ := ih₁ hn
    obtain ⟨b, m, hb, rfl, rfl⟩ := ih₂ rfl
    refine ⟨_, m, .cond proper tested ha hb, rfl, ?_⟩
    rw [renumber_condCode, hn, renumber_plain k (plain_of_value proper tested)]
  | @loop n' n₁ m pos first body test step i t b s properTest properStep started tested inner
      stepped ih₁ ih₂ =>
    have hn : n + 1 + k = n' + 1 := by omega
    obtain ⟨i, n₁, hi, rfl, rfl⟩ := ih₁ hn
    obtain ⟨b, m, hb, rfl, rfl⟩ := ih₂ rfl
    rw [← hn] at tested
    obtain ⟨t, ht, rfl⟩ := loopTest_below properTest tested
    refine ⟨_, m, .loop properTest properStep hi ht hb stepped, rfl, ?_⟩
    rw [renumber_loopCode, hn, renumber_plain k (plain_of_loopStep properStep stepped)]
  | ret proper valued =>
    refine ⟨_, n, .ret proper valued, hn.symm, ?_⟩
    rw [renumber_append, renumber_plain k (plain_of_value proper valued)]
    simp [renumber, Instr.mapLabel, hc]
  | expr proper run =>
    exact ⟨_, n, .expr proper run, hn.symm, (renumber_plain k (plain_of_effect proper run)).symm⟩

/-- Where the code of a function begins, and the number that is handed out last before it. -/
theorem emits_of_split {req : Requirements} {n m : Nat} {fs before after : List Function}
    {rs : List (List Instr)} {f : Function} (h : EmitsFunctions req n fs rs m)
    (hf : fs = before ++ f :: after) :
    ∃ b inner m' pre post, f.body = some b ∧
      Emits { locals := f.locals, req, exit := exitLabel f.name } (.many b.stmts)
        (n + (before.flatMap Function.controls).length) inner m' ∧
      rs.flatten = pre ++
        Instr.label f.name :: (inner ++ [Instr.label (exitLabel f.name)] ++ Instr.ret :: post) := by
  induction h generalizing before with
  | nil => simp at hf
  | @cons n n₁ m g fs b inner rs hasBody first rest ih =>
    cases before with
    | nil =>
      cases hf
      exact ⟨b, inner, n₁, [], rs.flatten, hasBody, first, by simp⟩
    | cons g' before =>
      cases hf
      obtain ⟨b', inner', m', pre, post, hb, he, hr⟩ := ih rfl
      refine ⟨b', inner', m', _, post, hb, ?_, by rw [List.flatten_cons, hr, ← List.append_assoc]⟩
      have hn : n₁ = n + g.controls.length := by
        rw [count_of_emits first, Function.controls, hasBody]
        rfl
      rwa [List.flatMap_cons, List.length_append, ← Nat.add_assoc, ← hn]

/-- The segment of a function in the code of a program. -/
theorem segment?_of_program {p : Program} {code : List Instr} {before after : List Function}
    {f : Function} (hp : p.Proper) (ht : p.topLevel = false) (h : EmitsProgram p code)
    (hf : p.funcs = before ++ f :: after) :
    ∃ b inner m, f.body = some b ∧
      Emits { locals := f.locals, req := p.req, exit := exitLabel f.name } (.many b.stmts)
        (before.flatMap Function.controls).length inner m ∧
      segment? f.name code =
        some (.label f.name :: (inner ++ [Instr.label (exitLabel f.name)] ++ [.ret])) := by
  have hd := nodup_of_program hp h
  cases h with
  | topLevel isTop => exact absurd (isTop.symm.trans ht) (by decide)
  | @functions rs m notTop unreserved hasMain emitted =>
    obtain ⟨b, inner, m', pre, post, hb, he, hr⟩ := emits_of_split emitted hf
    rw [Nat.zero_add] at he
    have hs : pre ++ Instr.label f.name :: (inner ++ [Instr.label (exitLabel f.name)] ++
        Instr.ret :: (post ++ [Instr.label startLabel, .call mainName, .display, .halt])) <:+
          .jump startLabel :: (routines p.req ++ (rs.flatten ++
            [Instr.label startLabel, .call mainName, .display, .halt])) :=
      ⟨.jump startLabel :: routines p.req, by simp [hr]⟩
    refine ⟨b, inner, m', hb, he, segment?_of_suffix hd hs ?_⟩
    · rw [List.any_append, isEnd_of_emits he]
      rfl

end Lowering

end StackC
