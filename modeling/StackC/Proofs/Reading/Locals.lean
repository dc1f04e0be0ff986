import StackC.Proofs.Reading.Program

/-! What an expression does to the locals: it adds new ones behind those that were there, and leaves
the old ones as they are. -/
namespace StackC.Grammar

/-- A name stands for the local that has it, or for a new one. -/
theorem resolve_cases {locals locals' : List Local} {t : Token} {i : Nat} {fresh : Option Nat}
    (h : resolve locals t = .ok (i, locals', fresh)) :
    (findLocal? locals t.lit = some i ∧ locals' = locals ∧ fresh = none) ∨
      (findLocal? locals t.lit = none ∧ t.lit ≠ scratchName ∧ i = locals.length ∧
        locals' = locals ++ [⟨t.lit, .int, t.pos⟩] ∧ fresh = some i) := by
  unfold resolve at h
  split at h
  · next hf =>
    cases h
    exact .inl ⟨hf, rfl, rfl⟩
  · next hf =>
    split at h
    · cases h
    · next hs =>
      cases h
      exact .inr ⟨hf, by simpa using hs, rfl, rfl, rfl⟩

/-- A name that is not reserved stands for some local. -/
theorem exists_resolve (locals : List Local) {t : Token} (ht : t.lit ≠ scratchName) :
    ∃ i locals' fresh, resolve locals t = .ok (i, locals', fresh) := by
  unfold resolve
  split
  · exact ⟨_, _, _, rfl⟩
  · exact ⟨_, _, _, if_neg (by simpa using ht)⟩

/-- The local that a name stands for has that name. -/
theorem getElem?_of_resolve {locals locals' : List Local} {t : Token} {i : Nat} {fresh : Option Nat}
    (h : resolve locals t = .ok (i, locals', fresh)) :
    (locals'.map Local.name)[i]? = some t.lit := by
  obtain ⟨hf, rfl, -⟩ | ⟨-, -, rfl, rfl, -⟩ := resolve_cases h
  · obtain ⟨hi, hn, -⟩ := List.findIdx?_eq_some_iff_getElem.mp hf
    simpa [hi] using hn
  · simp

/-- Another type for a local behind the old ones leaves those alone. -/
theorem prefix_retype {old locals : List Local} {i : Nat} (h : old <+: locals) (hi : old.length ≤ i)
    (type : Ty) : old <+: retype locals i type := by
  rw [List.prefix_iff_eq_take] at h ⊢
  rw [retype, List.take_modify, ← h, List.modify_eq_self (by simpa using hi)]

theorem isVariable_iff {i : Nat} {x : Expr} : isVariable i x ↔ ∃ p, x = .var p i := by
  cases x <;> simp [isVariable]

/-- A star changes a type only where its operand is the variable that is new. -/
theorem inferDeref_cases (locals : List Local) (fresh : Option Nat) (e : Expr) :
    (∃ i q p, fresh = some i ∧ e = .deref q (.var p i) ∧
        inferDeref locals fresh e = retype locals i (.stars 1)) ∨
      (∀ i q p, fresh = some i → e ≠ .deref q (.var p i)) ∧ inferDeref locals fresh e = locals := by
  unfold inferDeref
  split
  · next i q x =>
    split
    · next hv =>
      obtain ⟨p, rfl⟩ := isVariable_iff.mp hv
      exact .inl ⟨i, q, p, rfl, rfl, rfl⟩
    · next hv =>
      refine .inr ⟨?_, rfl⟩
      rintro j q' p hj he
      cases hj
      cases he
      exact hv (isVariable_iff.mpr ⟨p, rfl⟩)
  · next hn => exact .inr ⟨fun i q p hf he => hn i q (.var p i) hf he, rfl⟩

/-- An assignment changes a type only where its target is the variable that is new, and what is
assigned is a pointer. -/
theorem inferAssign_cases (locals : List Local) (fresh : Option Nat) (l r : Expr) :
    (∃ i p type, fresh = some i ∧ l = .var p i ∧ r.type? locals = some type ∧ type.isPointer ∧
        inferAssign locals fresh l r = retype locals i type) ∨
      (∀ i p type, fresh = some i → l = .var p i → r.type? locals = some type →
        type.isPointer = false) ∧ inferAssign locals fresh l r = locals := by
  unfold inferAssign
  split
  · next i type ht =>
    split
    · next hv =>
      rw [Bool.and_eq_true, isVariable_iff] at hv
      obtain ⟨⟨p, rfl⟩, hp⟩ := hv
      exact .inl ⟨i, p, type, rfl, rfl, ht, hp, rfl⟩
    · next hv =>
      refine .inr ⟨?_, rfl⟩
      rintro j p type' hj rfl ht'
      cases hj
      rw [ht] at ht'
      cases ht'
      simpa [isVariable] using hv
  · next hn => exact .inr ⟨fun i p type hf _ ht => absurd ht (hn i type hf), rfl⟩

theorem prefix_inferDeref {old locals : List Local} {fresh : Option Nat} (h : old <+: locals)
    (hi : ∀ i, fresh = some i → old.length ≤ i) (e : Expr) : old <+: inferDeref locals fresh e := by
  obtain ⟨i, q, p, hf, -, he⟩ | ⟨-, he⟩ := inferDeref_cases locals fresh e
  · rw [he]
    exact prefix_retype h (hi i hf) _
  · rwa [he]

theorem prefix_inferAssign {old locals : List Local} {fresh : Option Nat} (h : old <+: locals)
    (hi : ∀ i, fresh = some i → old.length ≤ i) (l r : Expr) :
    old <+: inferAssign locals fresh l r := by
  obtain ⟨i, p, type, hf, -, -, -, he⟩ | ⟨-, he⟩ := inferAssign_cases locals fresh l r
  · rw [he]
    exact prefix_retype h (hi i hf) _
  · rwa [he]

/-- The form may end without an operand of its own. -/
def Form.isOptional : Form → Bool
  | .chain .. | .arguments => true
  | _ => false

/-- The second state has the locals of the first and new ones behind them. If the operand read last
has introduced a local, it is one of these, unless that operand was read before. -/
structure Adds (f : Form) (s s' : State) : Prop where
  locals : s.locals <+: s'.locals
  fresh : ∀ i, s'.fresh = some i → s.locals.length ≤ i ∨ f.isOptional ∧ s.fresh = some i

namespace Adds

variable {f g : Form} {s s₁ s₂ : State} {t : Token}

theorem ofPush (h : Adds f s s₁) : Adds f (s.push t) s₁ := ⟨h.locals, h.fresh⟩

theorem toPush (h : Adds f s (s₁.push t)) : Adds f s s₁ := ⟨h.locals, h.fresh⟩

theorem length_le (h : Adds f s s₁) (hf : f.isOptional = false) (i : Nat) (hi : s₁.fresh = some i) :
    s.locals.length ≤ i := by
  simpa [hf] using h.fresh i hi

/-- An operand of its own makes any form. -/
theorem single (h : Adds f s s₁) (hf : f.isOptional = false) : Adds g s s₁ :=
  ⟨h.locals, fun i hi => .inl (h.length_le hf i hi)⟩

theorem of_fresh_eq_none (h : s.locals <+: s₁.locals) (hf : s₁.fresh = none) : Adds f s s₁ :=
  ⟨h, fun i hi => by rw [hf] at hi; cases hi⟩

/-- What was introduced last came with one of the two parts. -/
theorem trans (h₁ : Adds f s s₁) (hf : f.isOptional = false) (h₂ : Adds g s₁ s₂) : Adds f s s₂ := by
  refine ⟨h₁.locals.trans h₂.locals, fun i hi => .inl ?_⟩
  obtain h | ⟨-, h⟩ := h₂.fresh i hi
  · exact Nat.le_trans h₁.locals.length_le h
  · exact h₁.length_le hf i h

end Adds

/-- No expression changes a local that was there before. -/
theorem adds_of_reads {f : Form} {s s' : State} {xs : List Expr} (h : Reads f s xs s') :
    Adds f s s' := by
  induction h with
  | paren opens inner closes ih => exact ⟨ih.locals, fun i hi => .inl (ih.length_le rfl i hi)⟩
  | call isName opens inner ih => exact .of_fresh_eq_none ih.locals rfl
  | @name s t i locals fresh isName noCall known =>
    obtain ⟨-, rfl, rfl⟩ | ⟨-, -, rfl, rfl, rfl⟩ := resolve_cases known
    · exact .of_fresh_eq_none List.prefix_rfl rfl
    · refine ⟨List.prefix_append _ _, fun j hj => .inl ?_⟩
      cases hj
      exact Nat.le_refl _
  | number isNumber => exact .of_fresh_eq_none List.prefix_rfl rfl
  | noArguments closes => exact ⟨List.prefix_rfl, fun i hi => .inr ⟨rfl, hi⟩⟩
  | arguments more inner closes ih => exact ih.toPush.single rfl
  | lastArgument only last ih => exact ih.single rfl
  | moreArguments first comma others ih₁ ih₂ => exact (ih₁.toPush.trans rfl ih₂).single rfl
  | plus isPlus operand ih => exact ih.ofPush
  | unary noPlus isOp operand ih =>
    exact ⟨prefix_inferDeref ih.locals (ih.length_le rfl) _, ih.fresh⟩
  | operand noUnary inner ih => exact ih.single rfl
  | tightest inner ih => exact ih.single rfl
  | level left rest ih₁ ih₂ => exact (ih₁.trans rfl ih₂).single rfl
  | endChain noOperator => exact ⟨List.prefix_rfl, fun i hi => .inr ⟨rfl, hi⟩⟩
  | @chain s s₁ s₂ t n op swap l r x isOp right rest ih₁ ih₂ =>
    have h : Adds (.chain n (operation swap t.pos op l r)) s₁ s₂ := ⟨ih₂.locals, ih₂.fresh⟩
    exact ((ih₁.trans rfl h).single rfl).ofPush
  | value inner noAssign ih => exact ih.single rfl
  | @assign s s₁ s₂ t l r left eq right ih₁ ih₂ =>
    have h := ih₁.toPush.trans rfl ih₂
    exact ⟨prefix_inferAssign h.locals (ih₁.length_le rfl) l r, (h.single rfl).fresh⟩

end StackC.Grammar
