import StackC.Proofs.Lowering.Calls
import StackC.Proofs.Lowering.Numbering

/-! The code of a program as a list of routines. -/
namespace StackC.Lowering

open Asm

/-- The last instruction of a routine: the main part stops, and any other returns. -/
def ending (entry : Bytes) : Instr := if entry = startLabel then .halt else .ret

/-- A stretch of code that is entered at its first label, left at its last instruction, and has the
targets of all its jumps. -/
structure IsRoutine (entry : Bytes) (r : List Instr) : Prop where
  shape : ∃ inner, r = .label entry :: (inner ++ [ending entry]) ∧ inner.any Instr.isEnd = false
  closed : targets r ⊆ labels r

/-- The functions have this code, one list for each, between the two numbers handed out last. -/
inductive EmitsFunctions (req : Requirements) :
    Nat → List Function → List (List Instr) → Nat → Prop
  | nil {n : Nat} : EmitsFunctions req n [] [] n
  | cons {n n₁ m : Nat} {f : Function} {fs : List Function} {b : Body} {inner : List Instr}
      {rs : List (List Instr)} (hasBody : f.body = some b)
      (first : Emits { locals := f.locals, req, exit := exitLabel f.name } (.many b.stmts) n inner
        n₁)
      (rest : EmitsFunctions req n₁ fs rs m) :
      EmitsFunctions req n (f :: fs)
        ((.label f.name :: (inner ++ [Instr.label (exitLabel f.name), .ret])) :: rs) m

private theorem emits_of_functions {req : Requirements} {fs : List Function}
    (hf : ∀ f ∈ fs, f.Proper req) {n : Nat} {code : List Instr}
    (h : functions req n fs = .ok code) :
    ∃ rs m, EmitsFunctions req n fs rs m ∧ code = rs.flatten := by
  induction fs generalizing n code with
  | nil =>
    cases h
    exact ⟨[], n, .nil, rfl⟩
  | cons f fs ih =>
    rw [List.forall_mem_cons] at hf
    rw [functions] at h
    obtain ⟨⟨first, n₁⟩, hb, h⟩ := Outcome.bind_eq_ok.mp h
    obtain ⟨rest, hr, h⟩ := Outcome.bind_eq_ok.mp h
    cases h
    obtain ⟨b, inner, hbody, he, rfl⟩ := body_eq_ok hf.1 hb
    obtain ⟨rs, m, hrs, rfl⟩ := ih hf.2 hr
    exact ⟨_, m, .cons hbody he hrs, by simp⟩

def topExit : Bytes := ascii "l.return"

/-- The program has this code: the comparison routines, the functions, and the main part. -/
inductive EmitsProgram (p : Program) : List Instr → Prop
  | topLevel {f : Function} {b : Body} {inner : List Instr} {m : Nat} (isTop : p.topLevel = true)
      (single : p.funcs = [f]) (hasBody : f.body = some b)
      (first : Emits { locals := f.locals, req := p.req, exit := topExit } (.many b.stmts) 0 inner
        m) :
      EmitsProgram p (.jump startLabel :: (routines p.req ++
        Instr.label startLabel :: (inner ++ [Instr.label topExit, .display, .halt])))
  | functions {rs : List (List Instr)} {m : Nat} (notTop : p.topLevel = false)
      (unreserved : ∀ f ∈ p.funcs, f.name ∉ reservedNames)
      (hasMain : (findFunction? p.funcs mainName).isSome)
      (emitted : EmitsFunctions p.req 0 p.funcs rs m) :
      EmitsProgram p (.jump startLabel :: (routines p.req ++ (rs.flatten ++
        [Instr.label startLabel, .call mainName, .display, .halt])))

/-- The routines are behind the first jump. -/
theorem EmitsProgram.exists_tail {p : Program} {code : List Instr} (h : EmitsProgram p code) :
    ∃ tail, code = .jump startLabel :: (routines p.req ++ tail) := by
  cases h with
  | topLevel => exact ⟨_, rfl⟩
  | functions => exact ⟨_, rfl⟩

private theorem checkNames_eq_ok {funcs : List Function} (h : checkNames funcs = .ok ()) :
    (∀ f ∈ funcs, f.name ∉ reservedNames) ∧ (findFunction? funcs mainName).isSome := by
  unfold checkNames at h
  split at h
  · cases h
  · next hn =>
    split at h
    · next hm =>
      refine ⟨fun f hf hr => ?_, hm⟩
      exact List.find?_eq_none.mp hn f hf (isReserved_iff.mpr hr)
    · cases h

theorem emits_of_program {p : Program} (hp : p.Proper) {code : List Instr}
    (h : program p = .ok code) : EmitsProgram p code := by
  rw [program] at h
  cases ht : p.topLevel with
  | true =>
    obtain ⟨f, hf⟩ := hp.single ht
    rw [ht, hf] at h
    obtain ⟨⟨first, m⟩, hb, h⟩ := Outcome.bind_eq_ok.mp h
    cases h
    obtain ⟨b, inner, hbody, he, rfl⟩ := body_eq_ok (hp.functions f (by simp [hf])) hb
    have := EmitsProgram.topLevel ht hf hbody he
    simpa [topExit] using this
  | false =>
    rw [ht] at h
    obtain ⟨⟨⟩, hn, h⟩ := Outcome.bind_eq_ok.mp h
    obtain ⟨rest, hr, h⟩ := Outcome.bind_eq_ok.mp h
    cases h
    obtain ⟨hu, hm⟩ := checkNames_eq_ok hn
    obtain ⟨rs, m, hrs, rfl⟩ := emits_of_functions hp.functions hr
    have := EmitsProgram.functions ht hu hm hrs
    simpa using this

end StackC.Lowering
