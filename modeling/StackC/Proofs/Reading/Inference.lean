import StackC.Proofs.Reading.Places
import StackC.Proofs.Tree.Inference

/-! How the types of locals come about while a function is read. At every place the locals known so
far have the types that the nodes read so far give them. -/
namespace StackC.Grammar

section Locals

variable {locals locals' : List Local} {k : Nat} {i : Int} {v w : Local}

theorem getLocal?_mono (hl : locals <+: locals') (h : getLocal? locals i = some v) :
    getLocal? locals' i = some v := by
  match i with
  | .negSucc _ => cases h
  | .ofNat n =>
    obtain ⟨more, rfl⟩ := hl
    exact (List.getElem?_append_left (List.getElem?_eq_some_iff.mp h).1).trans h

theorem mem_of_getLocal? (h : getLocal? locals i = some v) : v ∈ locals := by
  match i with
  | .negSucc _ => cases h
  | .ofNat n => exact List.mem_of_getElem? h

/-- A local is found where it was, with its new type. -/
theorem getLocal?_retype (type : Ty) : getLocal? (retype locals k type) i =
    if i = k then (getLocal? locals i).map fun v => { v with type } else getLocal? locals i := by
  match i with
  | .negSucc n => rw [if_neg (by simp)]; rfl
  | .ofNat n =>
    change (retype locals k type)[n]? = if (n : Int) = k then locals[n]?.map _ else locals[n]?
    rw [retype, List.getElem?_modify]
    by_cases hn : n = k
    · simp [hn]
    · rw [if_neg fun h => hn (Int.ofNat_inj.mp h)]
      simp [Ne.symm hn]

theorem retype_self (h : getLocal? locals k = some v) : retype locals k v.type = locals := by
  refine List.ext_getElem? fun n => ?_
  change getLocal? (retype locals k v.type) n = getLocal? locals n
  rw [getLocal?_retype]
  split
  · next hn => rw [hn, h, Option.map_some]
  · rfl

/-- A new variable behind a star becomes a pointer. -/
theorem inferDeref_new (q p : Int) :
    inferDeref locals (some k) (.deref q (.var p k)) = retype locals k (.stars 1) := by
  simp [inferDeref, isVariable]

/-- A new variable is an integer unless it is assigned a pointer. -/
theorem inferAssign_new {r : Expr} {type : Ty} (p : Int) (hv : getLocal? locals k = some v)
    (hint : v.type = .int) (hr : r.type? locals = some type) :
    inferAssign locals (some k) (.var p k) r =
      retype locals k (if type.isPointer then type else .int) := by
  unfold inferAssign
  rw [hr]
  cases hpt : type.isPointer with
  | true => simp [isVariable, hpt]
  | false => simpa [isVariable, hpt, hint] using (retype_self hv).symm

theorem map_pos_retype (type : Ty) :
    (retype locals k type).map Local.pos = locals.map Local.pos := by
  have h : table (retype locals k type) = table locals := table_retype k type
  have hp := congrArg (List.map Prod.snd) h
  rw [table, table, List.map_map, List.map_map] at hp
  exact hp

theorem eq_of_pos_eq {j : Int} (hinc : locals.Pairwise (·.pos < ·.pos))
    (hi : getLocal? locals i = some v) (hj : getLocal? locals j = some w) (h : v.pos = w.pos) :
    i = j := by
  refine getLocal?_inj Local.pos ?_ hi hj h
  rw [List.nodup_iff_pairwise_ne, List.pairwise_map]
  exact hinc.imp Int.ne_of_lt

end Locals

/-- The nodes and locals that are known where these tokens are ahead. They stand before the tokens,
and each local has the type that the nodes give it so far. -/
structure Typed (declared? : Int → Option Nat) (ns : List Expr) (ahead : List Token)
    (locals : List Local) : Prop where
  behind : ∀ e ∈ ns, ∀ q ∈ e.pos?, ∀ t ∈ ahead, q < t.pos
  localsBehind : ∀ v ∈ locals, ∀ t ∈ ahead, v.pos < t.pos
  increasing : locals.Pairwise (·.pos < ·.pos)
  closed : ∀ e ∈ ns, e.nodes ⊆ ns
  /-- A variable has a local. No other begins where the variable stands. -/
  bound : ∀ p i, .var p i ∈ ns → ∃ v, getLocal? locals i = some v ∧
    (v.pos = p ∨ ∀ w ∈ locals, w.pos ≠ p)
  inferred : ∀ v ∈ locals, Inferred declared? ns locals v

namespace Typed

variable {declared? : Int → Option Nat} {ns ns' : List Expr} {ahead ahead' : List Token}
variable {locals : List Local} {e : Expr} {v : Local}

theorem drop (h : Typed declared? ns ahead locals) (ha : ahead' ⊆ ahead) :
    Typed declared? ns ahead' locals :=
  { h with
    behind := fun e he q hq t ht => h.behind e he q hq t (ha ht)
    localsBehind := fun v hv t ht => h.localsBehind v hv t (ha ht) }

theorem tail {t : Token} (h : Typed declared? ns (t :: ahead) locals) :
    Typed declared? ns ahead locals := h.drop (List.subset_cons_self t ahead)

theorem congr (h : Typed declared? ns ahead locals) (hn : ∀ e, e ∈ ns ↔ e ∈ ns') :
    Typed declared? ns' ahead locals where
  behind e he := h.behind e ((hn e).mpr he)
  localsBehind := h.localsBehind
  increasing := h.increasing
  closed e he y hy := (hn y).mp (h.closed e ((hn e).mpr he) hy)
  bound p i hm := h.bound p i ((hn _).mpr hm)
  inferred v hv := (h.inferred v hv).congr hn

/-- One more node from which nothing is inferred. -/
theorem add (h : Typed declared? ns ahead locals) (he : Idle declared? locals e)
    (hpos : ∀ q ∈ e.pos?, ∀ t ∈ ahead, q < t.pos) (hin : e.nodes ⊆ e :: ns)
    (hvar : ∀ p i, e = .var p i → ∃ v, getLocal? locals i = some v ∧
      (v.pos = p ∨ ∀ w ∈ locals, w.pos ≠ p)) :
    Typed declared? (e :: ns) ahead locals where
  behind := List.forall_mem_cons.mpr ⟨hpos, h.behind⟩
  localsBehind := h.localsBehind
  increasing := h.increasing
  closed := List.forall_mem_cons.mpr
    ⟨hin, fun y hy => List.subset_cons_of_subset e (h.closed y hy)⟩
  bound p i hm := by
    rcases List.mem_cons.mp hm with hm | hm
    · exact hvar p i hm.symm
    · exact h.bound p i hm
  inferred w hw := (h.inferred w hw).idle hw he

/-- One that is no variable. -/
theorem node (h : Typed declared? ns ahead locals) (he : Idle declared? locals e)
    (hvar : e.isVar = false) (hpos : ∀ q ∈ e.pos?, ∀ t ∈ ahead, q < t.pos)
    (hin : e.nodes ⊆ e :: ns) : Typed declared? (e :: ns) ahead locals := by
  refine h.add he hpos hin fun p i he => ?_
  rw [he] at hvar
  cases hvar

/-- A variable and its local. -/
theorem var {p i : Int} (h : Typed declared? ns ahead locals) (hp : ∀ t ∈ ahead, p < t.pos)
    (hv : getLocal? locals i = some v) (hvp : v.pos = p ∨ ∀ w ∈ locals, w.pos ≠ p) :
    Typed declared? (.var p i :: ns) ahead locals := by
  refine h.add (.of_givesType rfl) ?_ ?_ ?_
  · rintro _ ⟨⟩
    exact hp
  · exact List.cons_subset_cons _ (List.nil_subset _)
  · rintro _ _ ⟨⟩
    exact ⟨v, hv, hvp⟩

/-- A variable inside a known node is known. -/
theorem var_of_deref (h : Typed declared? ns ahead locals) {q p i : Int}
    (hm : .deref q (.var p i) ∈ ns) : .var p i ∈ ns :=
  h.closed _ hm (by simp [Expr.nodes])

theorem var_of_assign (h : Typed declared? ns ahead locals) {q p i : Int} {r : Expr}
    (hm : .assign q (.var p i) r ∈ ns) : .var p i ∈ ns :=
  h.closed _ hm (by simp [Expr.nodes])

theorem right_of_assign (h : Typed declared? ns ahead locals) {q : Int} {l r : Expr}
    (hm : .assign q l r ∈ ns) : r.nodes ⊆ ns :=
  fun y hy => h.closed _ hm (by simp [Expr.nodes, hy])

/-- The next token begins a local. -/
theorem declare {t : Token} {type : Ty} (h : Typed declared? ns (t :: ahead) locals)
    (hahead : ∀ u ∈ ahead, t.pos < u.pos)
    (hd : (∃ n, declared? t.pos = some n ∧ type = .stars n) ∨
      declared? t.pos = none ∧ type = .int) :
    Typed declared? ns ahead (locals ++ [⟨t.lit, type, t.pos⟩]) := by
  have hnone : ∀ i, .var t.pos i ∉ ns :=
    fun i hm => Int.lt_irrefl _ (h.behind _ hm t.pos rfl t List.mem_cons_self)
  have hold : locals <+: locals ++ [⟨t.lit, type, t.pos⟩] := List.prefix_append _ _
  constructor
  case behind => exact h.tail.behind
  case localsBehind =>
    rw [List.forall_mem_append, List.forall_mem_singleton]
    exact ⟨h.tail.localsBehind, hahead⟩
  case increasing =>
    refine List.pairwise_append.mpr ⟨h.increasing, List.pairwise_singleton _ _, fun v hv w hw => ?_⟩
    rw [List.mem_singleton.mp hw]
    exact h.localsBehind v hv t List.mem_cons_self
  case closed => exact h.closed
  case bound =>
    intro p i hm
    obtain ⟨v, hv, hp⟩ := h.bound p i hm
    refine ⟨v, getLocal?_mono hold hv, hp.imp_right fun hw => ?_⟩
    rw [List.forall_mem_append, List.forall_mem_singleton]
    exact ⟨hw, fun (ht : t.pos = p) => hnone i (ht ▸ hm)⟩
  case inferred =>
    rw [List.forall_mem_append, List.forall_mem_singleton]
    constructor
    · intro w hw
      refine (h.inferred w hw).transfer (fun _ _ => .rfl) (fun _ _ _ => .rfl) ?_
      intro q i r hm p j hj
      obtain ⟨v, hv, -⟩ := h.bound p j (h.right_of_assign hm hj)
      rw [type_localsAt, type_localsAt, getLocal?_mono hold hv, hv]
    · rcases hd with ⟨n, hn, ht⟩ | ⟨hn, ht⟩
      · exact .of_declared hn ht
      · refine ⟨fun n hs => ?_, fun _ q i hm => ?_, fun _ q i r hm => ?_, fun _ _ _ => ht⟩
        · rw [hn] at hs
          cases hs
        · exact absurd (h.var_of_deref hm) (hnone i)
        · exact absurd (h.var_of_assign hm) (hnone i)

section Retype

variable {k : Nat} {type : Ty} (h : Typed declared? ns ahead locals)
variable (hv : getLocal? locals k = some v) (hint : v.type = .int)
variable (hderef : ∀ q p i, e = .deref q (.var p i) → p = v.pos)
variable (hassign : ∀ q p i r, e = .assign q (.var p i) r → p = v.pos)
variable (hwait : ∀ q l r, .assign q l r ∈ ns → ∀ p, .var p k ∈ r.nodes →
  declared? v.pos = none ∧ awaits (e :: ns) v.pos q)
include h hv hint hderef hassign hwait

/-- Where a local gets its type from a new node, all others stay as they are. Where assignments
ended before, it was an integer still: either it waits there for its type, or they do not speak of
it. -/
theorem inferred_retype {w : Local} (hw : w ∈ locals) (hne : w.pos ≠ v.pos) :
    Inferred declared? (e :: ns) (Grammar.retype locals k type) w := by
  refine (h.inferred w hw).transfer (fun q i => ?_) (fun q i r => ?_) ?_
  · rw [List.mem_cons, or_iff_right fun he => hne (hderef q _ i he.symm)]
  · rw [List.mem_cons, or_iff_right fun he => hne (hassign q _ i r he.symm)]
  · intro q i r hm p a ha
    obtain ⟨u, hu, -⟩ := h.bound p a (h.right_of_assign hm ha)
    rw [type_localsAt, type_localsAt, getLocal?_retype, hu]
    split
    · next hak =>
      subst hak
      rw [hv] at hu
      cases hu
      obtain ⟨hd, haw⟩ := hwait q _ r hm p ha
      simp [hd, haw, hint]
    · next hak =>
      have hup : u.pos ≠ v.pos := fun hp => hak (eq_of_pos_eq h.increasing hu hv hp)
      simp only [Option.map_some, awaits_cons fun q i r he => hup (hassign q _ i r he)]

/-- A local gets its type from a new node. -/
theorem retype (hvar : e.isVar = false) (hpos : ∀ q ∈ e.pos?, ∀ t ∈ ahead, q < t.pos)
    (hin : e.nodes ⊆ e :: ns)
    (hnew : Inferred declared? (e :: ns) (Grammar.retype locals k type) { v with type }) :
    Typed declared? (e :: ns) ahead (Grammar.retype locals k type) := by
  have hpositions (P : Int → Prop) (hP : ∀ w ∈ locals, P w.pos) :
      ∀ w ∈ Grammar.retype locals k type, P w.pos := by
    rw [← List.forall_mem_map (f := Local.pos) (P := P)] at hP ⊢
    rwa [map_pos_retype]
  constructor
  case behind => exact List.forall_mem_cons.mpr ⟨hpos, h.behind⟩
  case localsBehind => exact hpositions (fun q => ∀ t ∈ ahead, q < t.pos) h.localsBehind
  case increasing =>
    have hinc := h.increasing
    rw [← List.pairwise_map (f := Local.pos) (R := (· < ·))] at hinc ⊢
    rwa [map_pos_retype]
  case closed =>
    exact List.forall_mem_cons.mpr
      ⟨hin, fun y hy => List.subset_cons_of_subset e (h.closed y hy)⟩
  case bound =>
    intro p i hm
    have hm := (List.mem_cons.mp hm).resolve_left fun he => by
      rw [← he] at hvar
      cases hvar
    obtain ⟨w, hw, hp⟩ := h.bound p i hm
    rw [getLocal?_retype, hw]
    have hp := hp.imp_right (hpositions (· ≠ p))
    split
    · exact ⟨_, rfl, hp⟩
    · exact ⟨w, rfl, hp⟩
  case inferred =>
    intro w hw
    obtain ⟨j, hj⟩ := List.mem_iff_getElem?.mp hw
    change getLocal? (Grammar.retype locals k type) j = some w at hj
    rw [getLocal?_retype] at hj
    split at hj
    · next hk =>
      rw [hk, hv] at hj
      cases hj
      exact hnew
    · next hk =>
      exact h.inferred_retype hv hint hderef hassign hwait (mem_of_getLocal? hj)
        fun hp => hk (eq_of_pos_eq h.increasing hj hv hp)

end Retype

end Typed

/-! Expressions -/

/-- The tokens between two places stand in order, and none of them is declared. -/
structure Plain (declared? : Int → Option Nat) (ahead ahead' : List Token) : Prop where
  increasing : ahead.Pairwise (·.pos < ·.pos)
  uses : ∀ t ∈ ahead, t ∈ ahead' ∨ declared? t.pos = none

namespace Plain

variable {declared? : Int → Option Nat} {a b c : List Token} {t : Token}

theorem first (h : Plain declared? a c) (hb : c ⊆ b) : Plain declared? a b :=
  ⟨h.increasing, fun u hu => (h.uses u hu).imp_left fun hc => hb hc⟩

theorem rest (h : Plain declared? a c) (hb : b <:+ a) : Plain declared? b c :=
  ⟨h.increasing.sublist hb.sublist, fun u hu => h.uses u (hb.subset hu)⟩

theorem tail (h : Plain declared? (t :: a) c) : Plain declared? a c := h.rest (List.suffix_cons t a)

theorem stop (h : Plain declared? a c) : Plain declared? a (t :: c) :=
  h.first (List.subset_cons_self t c)

/-- The first token stands before all others. -/
theorem head (h : Plain declared? (t :: a) c) (hb : b ⊆ a) : ∀ u ∈ b, t.pos < u.pos :=
  fun u hu => (List.pairwise_cons.mp h.increasing).1 u (hb hu)

end Plain

/-- One of the tokens ahead is a name that stands for this variable. Nothing else is read. -/
def Names (s : State) (p i : Int) (s' : State) : Prop :=
  ∃ (t : Token) (k : Nat), t ∈ s.ahead ∧ t.pos = p ∧ i = k ∧
    resolve s.locals t = .ok (k, s'.locals, s'.fresh)

/-- How a form comes to be one variable. -/
def Form.Names (s : State) (p i : Int) (s' : State) : Form → Prop
  | .chain _ l => l = .var p i ∧ s' = s
  | .arguments | .argumentList => True
  | _ => Grammar.Names s p i s'

/-- What is read as a variable is its name, with parentheses and plus signs around it. -/
theorem names_of_reads {f : Form} {s s' : State} {p i : Int} (h : Reads f s [.var p i] s') :
    f.Names s p i s' := by
  generalize hx : [Expr.var p i] = xs at h
  induction h with
  | paren opens inner closes ih =>
    obtain ⟨t, k, ht, hp⟩ := ih hx
    exact ⟨t, k, List.mem_cons_of_mem _ ht, hp⟩
  | call isName opens inner ih => cases hx
  | @name s t i locals fresh isName noCall known =>
    cases hx
    exact ⟨t, i, List.mem_cons_self, rfl, rfl, known⟩
  | number isNumber => cases hx
  | noArguments | arguments | lastArgument | moreArguments => trivial
  | plus isPlus operand ih =>
    obtain ⟨t, k, ht, hp⟩ := ih hx
    exact ⟨t, k, List.mem_cons_of_mem _ ht, hp⟩
  | unary noPlus isOp operand ih => obtain rfl | rfl | rfl := unary?_cases isOp <;> cases hx
  | operand noUnary inner ih => exact ih hx
  | tightest inner ih => exact ih hx
  | level left rest ih₁ ih₂ =>
    obtain ⟨rfl, rfl⟩ := ih₂ hx
    exact ih₁ rfl
  | endChain noOperator =>
    cases hx
    exact ⟨rfl, rfl⟩
  | @chain s s₁ s₂ t n op swap l r x isOp right rest ih₁ ih₂ =>
    have ho := (ih₂ hx).1
    cases swap <;> cases ho
  | value inner noAssign ih => exact ih hx
  | assign left eq right ih₁ ih₂ => cases hx

/-- Nodes stand at the tokens that they are read from. -/
theorem exists_token_of_reads {n : Nat} {s s' : State} {x y : Expr} {q : Int}
    (h : Reads (.binary n) s [x] s') (hy : y ∈ x.nodes) (hq : q ∈ y.pos?) :
    ∃ t ∈ s.ahead, t.pos = q := by
  have hc := contained ⟨fun q => ∃ t ∈ s.ahead, t.pos = q, s.stop⟩ (.binary n) s
    ⟨fun t ht => ⟨t, ht, rfl⟩, rfl⟩
  obtain ⟨_, hr⟩ := single_eq_ok (run_of_reads h)
  simp only [hr] at hc
  cases hc with
  | ok hl => exact hl.value y hy q hq

section Infer

variable {declared? : Int → Option Nat} {ns : List Expr} {s s₁ s₂ : State} {x l r : Expr}
variable {p i q : Int} {t : Token}

/-- A variable that stands alone is a known one, whose local began before, or a new one. -/
theorem Names.cases (h : Names s p i s₁) (hold : Typed declared? ns s.ahead s.locals) :
    (s₁.fresh = none ∧ (∀ w ∈ s₁.locals, w.pos ≠ p) ∧ ∃ v, getLocal? s₁.locals i = some v ∧
        v.pos ≠ p) ∨
      ∃ (k : Nat) (name : Bytes), i = k ∧ s₁.fresh = some k ∧
        getLocal? s₁.locals k = some ⟨name, .int, p⟩ ∧ getLocal? s.locals k = none ∧
        ∀ j, .var p j ∉ ns := by
  obtain ⟨t, k, ht, rfl, rfl, hr⟩ := h
  obtain ⟨hf, hl, hn⟩ | ⟨-, -, rfl, hl, hn⟩ := resolve_cases hr
  · rw [hl]
    have hbefore : ∀ w ∈ s.locals, w.pos ≠ t.pos :=
      fun w hw => Int.ne_of_lt (hold.localsBehind w hw t ht)
    obtain ⟨hk, -⟩ := List.findIdx?_eq_some_iff_getElem.mp hf
    have hv : getLocal? s.locals k = some s.locals[k] := List.getElem?_eq_getElem hk
    exact .inl ⟨hn, hbefore, _, hv, hbefore _ (mem_of_getLocal? hv)⟩
  · refine .inr ⟨_, t.lit, rfl, hn, ?_, by simp [getLocal?], fun j hm => ?_⟩
    · rw [hl]
      simp [getLocal?]
    · exact Int.lt_irrefl _ (hold.behind _ hm t.pos rfl t ht)

theorem Names.undeclared {ahead : List Token} (h : Names s p i s₁)
    (hplain : Plain declared? s.ahead ahead) (hbehind : ∀ t ∈ ahead, p < t.pos) :
    declared? p = none := by
  obtain ⟨t, k, ht, rfl, -⟩ := h
  exact (hplain.uses t ht).resolve_left fun ha => Int.lt_irrefl _ (hbehind t ha)

/-- Behind a star a new variable becomes a pointer. -/
theorem Typed.dereferenced {k : Nat} {v : Local} {ahead : List Token} {locals old : List Local}
    {before : List Token} (hold : Typed declared? ns before old)
    (h : Typed declared? (.var v.pos k :: ns) ahead locals) (hv : getLocal? locals k = some v)
    (hint : v.type = .int) (hd : declared? v.pos = none) (hk : getLocal? old k = none)
    (hfree : ∀ j, .var v.pos j ∉ ns) (hq : ∀ u ∈ ahead, q < u.pos) :
    Typed declared? (.deref q (.var v.pos k) :: .var v.pos k :: ns) ahead
      (Grammar.retype locals k (.stars 1)) := by
  have hassigns : ∀ a l r, .assign a l r ∈ Expr.var v.pos k :: ns → .assign a l r ∈ ns :=
    fun a l r hm => (List.mem_cons.mp hm).resolve_left (by simp)
  refine h.retype hv hint ?_ (by simp) ?_ rfl ?_ ?_ ⟨?_, fun _ _ _ _ => rfl, ?_, ?_⟩
  · rintro _ _ _ ⟨⟩
    rfl
  · -- An assignment that ended before speaks of locals that were there before.
    intro a l r hm p hp
    obtain ⟨w, hw, -⟩ := hold.bound p k (hold.right_of_assign (hassigns a l r hm) hp)
    rw [hk] at hw
    cases hw
  · rintro _ ⟨⟩
    exact hq
  · simp [Expr.nodes]
  · intro n hn
    rw [hd] at hn
    cases hn
  · intro _ a j r hm
    have hm := hassigns a _ r ((List.mem_cons.mp hm).resolve_left (by simp))
    exact absurd (hold.var_of_assign hm) (hfree j)
  · intro _ hno
    exact absurd List.mem_cons_self (hno q k)

/-- Where an assignment to a new variable ends, what is assigned has the type that it has with the
locals as they are then. -/
theorem Typed.type?_assigned {k : Nat} {v : Local} {ahead : List Token} {locals : List Local}
    (h : Typed declared? ns ahead locals) (hv : getLocal? locals k = some v) (hint : v.type = .int)
    (hd : declared? v.pos = none) (hr : r.nodes ⊆ ns) (hq : ∀ y ∈ ns, y.pos? ≠ some q) (type : Ty) :
    r.type? (localsAt declared? (.assign q (.var v.pos k) r :: ns) q (Grammar.retype locals k type))
      = r.type? locals := by
  refine r.type?_congr fun p j hj => ?_
  obtain ⟨w, hw, -⟩ := h.bound p j (hr hj)
  rw [type_localsAt, getLocal?_retype, hw]
  split
  · next hk =>
    subst hk
    rw [hv] at hw
    cases hw
    have hwait : awaits (.assign q (.var v.pos k) r :: ns) v.pos q :=
      awaits_iff.mpr ⟨q, k, r, List.mem_cons_self, Expr.standsAt_iff.mpr
        ⟨_, List.mem_cons_self, rfl⟩⟩
    simp [hd, hwait, hint]
  · next hk =>
    have hne : w.pos ≠ v.pos := fun hp => hk (eq_of_pos_eq h.increasing hw hv hp)
    have hwait : awaits ns w.pos q = false := by
      -- No other node stands where this one does.
      rw [Bool.eq_false_iff, ne_eq, awaits_iff]
      rintro ⟨a, b, c, hm, hs⟩
      obtain ⟨y, hy, hyq⟩ := Expr.standsAt_iff.mp hs
      exact hq y (h.closed _ hm hy) hyq
    have he : ∀ a b c, Expr.assign q (.var v.pos k) r ≠ .assign a (.var w.pos b) c := by
      intro a b c he
      rw [Expr.assign.injEq, Expr.var.injEq] at he
      exact hne he.2.1.1.symm
    simp [awaits_cons he, hwait]

/-- As the target of an assignment a new variable gets the type of what is assigned, if that is a
pointer. -/
theorem Typed.assigned {k : Nat} {v : Local} {ahead before : List Token} {locals old : List Local}
    {type : Ty} (hold : Typed declared? ns before old)
    (h : Typed declared? (r.nodes ++ .var v.pos k :: ns) ahead locals)
    (hv : getLocal? locals k = some v) (hint : v.type = .int) (hd : declared? v.pos = none)
    (hk : getLocal? old k = none) (hfree : ∀ j, .var v.pos j ∉ r.nodes ++ ns)
    (hpos : ∀ u ∈ ahead, q < u.pos) (hq : ∀ y ∈ r.nodes ++ .var v.pos k :: ns, y.pos? ≠ some q)
    (hr : r.type? locals = some type) :
    Typed declared? (.assign q (.var v.pos k) r :: (r.nodes ++ .var v.pos k :: ns)) ahead
      (Grammar.retype locals k (if type.isPointer then type else .int)) := by
  have hparent : ∀ y ∈ r.nodes ++ .var v.pos k :: ns, ∀ j, .var v.pos j ∈ y.nodes →
      y = .var v.pos k := by
    intro y hy j hj
    rcases List.mem_append.mp hy with hy | hy
    · exact absurd (List.mem_append_left _ (r.nodes_subset y hy hj)) (hfree j)
    rcases List.mem_cons.mp hy with hy | hy
    · exact hy
    · exact absurd (List.mem_append_right _ (hold.closed y hy hj)) (hfree j)
  refine h.retype hv hint (by simp) ?_ ?_ rfl ?_ ?_ ⟨?_, ?_, ?_, ?_⟩
  · rintro _ _ _ _ ⟨⟩
    rfl
  · intro a l r' hm p hp
    refine ⟨hd, awaits_iff.mpr ⟨q, k, r, List.mem_cons_self, Expr.standsAt_iff.mpr ?_⟩⟩
    rcases List.mem_append.mp hm with hm | hm
    · -- An assignment inside the new one.
      exact ⟨_, List.mem_cons_of_mem _ (List.mem_append_right _ hm), rfl⟩
    · -- One that ended before speaks of locals that were there before.
      have hm := (List.mem_cons.mp hm).resolve_left (by simp)
      obtain ⟨w, hw, -⟩ := hold.bound p k (hold.right_of_assign hm hp)
      rw [hk] at hw
      cases hw
  · rintro _ ⟨⟩
    exact hpos
  · simp [Expr.nodes]
  · intro n hn
    rw [hd] at hn
    cases hn
  · intro _ a j hm
    cases hparent _ ((List.mem_cons.mp hm).resolve_left (by simp)) j (by simp [Expr.nodes])
  · intro _ a j r' hm
    rcases List.mem_cons.mp hm with he | hm
    · cases he
      refine ⟨type, ?_, rfl⟩
      rw [h.type?_assigned hv hint hd (List.subset_append_left _ _) hq, hr]
    · cases hparent _ hm j (by simp [Expr.nodes])
  · intro _ _ hno
    exact absurd List.mem_cons_self (hno q k r)

section Idle

variable {ahead : List Token} {locals : List Local} {fresh : Option Nat}

/-- A star gives no type where no new variable stands behind it. -/
theorem typed_deref_idle (h : Typed declared? ns ahead locals) (hx : x.nodes ⊆ ns)
    (hq : ∀ u ∈ ahead, q < u.pos)
    (hi : ∀ p i, x = .var p i → fresh = none ∧ ∀ w ∈ locals, w.pos ≠ p) :
    Typed declared? (.deref q x :: ns) ahead (inferDeref locals fresh (.deref q x)) := by
  obtain ⟨k, q', p, hk, he, -⟩ | ⟨-, he⟩ := inferDeref_cases locals fresh (.deref q x)
  · cases he
    rw [(hi p k rfl).1] at hk
    cases hk
  rw [he]
  refine h.node (fun v hv _ => ⟨?_, by simp⟩) rfl ?_ (List.cons_subset_cons _ hx)
  · intro a i he
    rw [Expr.deref.injEq] at he
    exact (hi _ i he.2).2 v hv rfl
  · rintro _ ⟨⟩
    exact hq

/-- An assignment gives no type where its target is no new variable. -/
theorem typed_assign_idle (h : Typed declared? ns ahead locals) (hl : l.nodes ⊆ ns)
    (hr : r.nodes ⊆ ns) (hq : ∀ u ∈ ahead, q < u.pos)
    (hi : ∀ p i, l = .var p i → fresh = none ∧ ∀ w ∈ locals, w.pos ≠ p) :
    Typed declared? (.assign q l r :: ns) ahead (inferAssign locals fresh l r) := by
  obtain ⟨k, p, type, hk, rfl, -⟩ | ⟨-, he⟩ := inferAssign_cases locals fresh l r
  · rw [(hi p k rfl).1] at hk
    cases hk
  rw [he]
  refine h.node (fun v hv _ => ⟨by simp, ?_⟩) rfl ?_
    (List.cons_subset_cons _ (List.append_subset.mpr ⟨hl, hr⟩))
  · intro a i b he
    rw [Expr.assign.injEq] at he
    exact (hi _ i he.2.1).2 v hv rfl
  · rintro _ ⟨⟩
    exact hq

end Idle

/-- A star and its operand. -/
theorem typed_deref (operand : Reads .unary s [x] s₁) (hold : Typed declared? ns s.ahead s.locals)
    (h : Typed declared? (x.nodes ++ ns) s₁.ahead s₁.locals)
    (hplain : Plain declared? s.ahead s₁.ahead) (hq : ∀ u ∈ s₁.ahead, q < u.pos) :
    Typed declared? (.deref q x :: (x.nodes ++ ns)) s₁.ahead
      (inferDeref s₁.locals s₁.fresh (.deref q x)) := by
  have hin : x.nodes ⊆ x.nodes ++ ns := List.subset_append_left _ _
  by_cases hx : ∃ p i, x = .var p i
  swap
  · exact typed_deref_idle h hin hq fun p i he => absurd ⟨p, i, he⟩ hx
  obtain ⟨p, i, rfl⟩ := hx
  have hnames : Names s p i s₁ := names_of_reads operand
  obtain ⟨hf, hbefore, -⟩ | ⟨k, name, rfl, hf, hv, hk, hfree⟩ := hnames.cases hold
  · refine typed_deref_idle h hin hq fun p' i' he => ?_
    cases he
    exact ⟨hf, hbefore⟩
  · have hd := hnames.undeclared hplain (h.behind (.var p k) List.mem_cons_self p rfl)
    rw [hf, inferDeref_new]
    exact Typed.dereferenced (v := ⟨name, .int, p⟩) hold h hv rfl hd hk hfree hq

/-- An assignment, its target and what is assigned. -/
theorem typed_assign (left : Reads (.binary levels) s [l] (s₁.push t))
    (right : Reads (.binary levels) s₁ [r] s₂) (hold : Typed declared? ns s.ahead s.locals)
    (hleft : Typed declared? (l.nodes ++ ns) (t :: s₁.ahead) s₁.locals)
    (h : Typed declared? (r.nodes ++ (l.nodes ++ ns)) s₂.ahead s₂.locals)
    (hplain : Plain declared? s.ahead s₂.ahead) (htail : Plain declared? (t :: s₁.ahead) s₂.ahead) :
    Typed declared? (.assign t.pos l r :: (r.nodes ++ (l.nodes ++ ns))) s₂.ahead
      (inferAssign s₂.locals s₁.fresh l r) := by
  have hinl : l.nodes ⊆ r.nodes ++ (l.nodes ++ ns) :=
    List.subset_append_of_subset_right _ (List.subset_append_left l.nodes ns)
  have hinr : r.nodes ⊆ r.nodes ++ (l.nodes ++ ns) := List.subset_append_left _ _
  have hpos : ∀ u ∈ s₂.ahead, t.pos < u.pos := htail.head (grows_of_reads right).1.subset
  by_cases hl : ∃ p i, l = .var p i
  swap
  · exact typed_assign_idle h hinl hinr hpos fun p i he => absurd ⟨p, i, he⟩ hl
  obtain ⟨p, i, rfl⟩ := hl
  have hnames : Names s p i (s₁.push t) := names_of_reads left
  have hadds := (adds_of_reads right).locals
  have hm : .var p i ∈ r.nodes ++ ((Expr.var p i).nodes ++ ns) := hinl (List.mem_singleton_self _)
  obtain ⟨hf, -, v, hv, hvp⟩ | ⟨k, name, rfl, hf, hv, hk, hfree⟩ := hnames.cases hold
  · refine typed_assign_idle h hinl hinr hpos fun p' i' he => ?_
    cases he
    obtain ⟨w, hw, hwp⟩ := h.bound p i hm
    rw [getLocal?_mono hadds hv] at hw
    cases hw
    exact ⟨hf, hwp.resolve_left hvp⟩
  · have hv := getLocal?_mono hadds hv
    have hd := hnames.undeclared hplain (h.behind _ hm p rfl)
    -- The target stands before the sign, and what is assigned behind it.
    have hp := hleft.behind (.var p k) List.mem_cons_self p rfl t List.mem_cons_self
    have hright : ∀ y ∈ r.nodes, ∀ q ∈ y.pos?, t.pos < q := by
      intro y hy q hq
      obtain ⟨u, hu, rfl⟩ := exists_token_of_reads right hy hq
      exact htail.head (List.Subset.refl _) u hu
    obtain ⟨type, hr⟩ := r.exists_type? fun p j hj =>
      (h.bound p j (hinr hj)).imp fun _ hw => hw.1
    have hf : s₁.fresh = some k := hf
    rw [hf, inferAssign_new p hv rfl hr]
    refine Typed.assigned (v := ⟨name, .int, p⟩) hold h hv rfl hd hk ?_ hpos ?_ hr
    · intro j hj
      rcases List.mem_append.mp hj with hj | hj
      · exact Int.lt_asymm (hright _ hj p rfl) hp
      · exact hfree j hj
    · intro y hy hyq
      rcases List.mem_append.mp hy with hy | hy
      · exact Int.lt_irrefl _ (hright y hy t.pos hyq)
      · exact Int.lt_irrefl _ (hleft.behind y hy t.pos hyq t List.mem_cons_self)

/-- An operator and its operands. -/
theorem typed_operation {ahead : List Token} {locals : List Local}
    (h : Typed declared? (r.nodes ++ (l.nodes ++ ns)) ahead locals) (hq : ∀ u ∈ ahead, q < u.pos)
    (swap : Bool) (op : BinaryOp) :
    Typed declared? ((operation swap q op l r).nodes ++ ns) ahead locals := by
  have hr : r.nodes ⊆ r.nodes ++ (l.nodes ++ ns) := List.subset_append_left _ _
  have hl : l.nodes ⊆ r.nodes ++ (l.nodes ++ ns) :=
    List.subset_append_of_subset_right _ (List.subset_append_left l.nodes ns)
  have hin : (operation swap q op l r).nodes ⊆
      operation swap q op l r :: (r.nodes ++ (l.nodes ++ ns)) := by
    cases swap with
    | false => exact List.cons_subset_cons _ (List.append_subset.mpr ⟨hl, hr⟩)
    | true => exact List.cons_subset_cons _ (List.append_subset.mpr ⟨hr, hl⟩)
  have hnode : Typed declared? (operation swap q op l r :: (r.nodes ++ (l.nodes ++ ns))) ahead
      locals := by
    cases swap
    all_goals
      refine h.node (.of_givesType rfl) rfl ?_ hin
      rintro _ ⟨⟩
      exact hq
  refine hnode.congr fun e => ?_
  cases swap <;> simp [operation, Expr.nodes, or_left_comm]

end Infer

/-- An expression leaves its locals with the types that its nodes give them. -/
theorem typed_of_reads {declared? : Int → Option Nat} {f : Form} {s s' : State} {xs : List Expr}
    (h : Reads f s xs s') (ns : List Expr) (hplain : Plain declared? s.ahead s'.ahead)
    (ht : Typed declared? (f.given ++ ns) s.ahead s.locals) :
    Typed declared? (Expr.allNodes xs ++ ns) s'.ahead s'.locals := by
  -- What is read first stays among the nodes while the rest is read, so the nodes are generalized.
  induction h generalizing ns with
  | paren opens inner closes ih => exact (ih ns hplain.tail.stop ht.tail).tail
  | @call s s₁ t t₁ args isName opens inner ih =>
    have hn := ih ns hplain.tail.tail ht.tail.tail
    have hafter := (grows_of_reads inner).1.subset
    rw [Expr.allNodes_singleton]
    refine hn.node (.of_givesType rfl) rfl ?_ ?_
    · rintro _ ⟨⟩
      exact hplain.head (List.subset_cons_of_subset t₁ hafter)
    · exact List.cons_subset_cons _ (List.subset_append_left _ _)
  | @name s t i locals fresh isName noCall known =>
    have hafter : ∀ u ∈ s.ahead, t.pos < u.pos := hplain.head (List.Subset.refl _)
    obtain ⟨hf, rfl, rfl⟩ | ⟨-, -, rfl, rfl, rfl⟩ := resolve_cases known
    · obtain ⟨hi, -⟩ := List.findIdx?_eq_some_iff_getElem.mp hf
      exact ht.tail.var hafter (List.getElem?_eq_getElem hi)
        (.inr fun w hw => Int.ne_of_lt (ht.localsBehind w hw t List.mem_cons_self))
    · have hd : declared? t.pos = none := (hplain.uses t List.mem_cons_self).resolve_left
        fun hm => Int.lt_irrefl _ (hafter t hm)
      have hnew := ht.declare hafter (.inr ⟨hd, rfl⟩)
      exact hnew.var (v := ⟨t.lit, .int, t.pos⟩) hafter (by simp [getLocal?]) (.inl rfl)
  | @number s t isNumber =>
    rw [Expr.allNodes_singleton]
    refine ht.tail.node (.of_givesType rfl) rfl ?_ ?_
    · rintro _ ⟨⟩
      exact hplain.head (List.Subset.refl _)
    · exact List.cons_subset_cons _ (List.nil_subset _)
  | noArguments closes => exact ht.tail
  | arguments more inner closes ih => exact (ih ns hplain.stop ht).tail
  | lastArgument only last ih => exact ih ns hplain ht
  | @moreArguments s s₁ s₂ t x xs first comma others ih₁ ih₂ =>
    have hg : s₁.ahead <:+ s.ahead := (List.suffix_cons _ _).trans (grows_of_reads first).1
    have hmore := List.subset_cons_of_subset t (grows_of_reads others).1.subset
    have hx := ih₁ ns (hplain.first hmore) ht
    rw [Expr.allNodes_singleton] at hx
    have hall := ih₂ (x.nodes ++ ns) (hplain.rest hg) hx.tail
    refine hall.congr fun e => ?_
    simp only [Expr.allNodes, List.mem_append, or_assoc, or_left_comm]
  | plus isPlus operand ih => exact ih ns hplain.tail ht.tail
  | @unary s s₁ t x node noPlus isOp operand ih =>
    have hx := ih ns hplain.tail ht.tail
    have hafter : ∀ u ∈ s₁.ahead, t.pos < u.pos := hplain.head (grows_of_reads operand).1.subset
    rw [Expr.allNodes_singleton] at hx ⊢
    obtain rfl | rfl | rfl := unary?_cases isOp
    case inr.inr => exact typed_deref operand ht.tail hx hplain.tail hafter
    all_goals
      rw [(inferDeref_cases s₁.locals s₁.fresh _).resolve_left (by simp) |>.2]
      refine hx.node (.of_givesType rfl) rfl ?_ ?_
      · rintro _ ⟨⟩
        exact hafter
      · exact List.cons_subset_cons _ (List.subset_append_left _ _)
  | operand noUnary inner ih => exact ih ns hplain ht
  | tightest inner ih => exact ih ns hplain ht
  | @level s s₁ s₂ n l x left rest ih₁ ih₂ =>
    have hl := ih₁ ns (hplain.first (grows_of_reads rest).1.subset) ht
    rw [Expr.allNodes_singleton] at hl
    exact ih₂ ns (hplain.rest (grows_of_reads left).1) hl
  | @endChain s n l noOperator =>
    rw [Expr.allNodes_singleton]
    exact ht
  | @chain s s₁ s₂ t n op swap l r x isOp right rest ih₁ ih₂ =>
    have hg : s₂.ahead <:+ s₁.ahead := (grows_of_reads rest).1
    have hr := ih₁ (l.nodes ++ ns) (hplain.tail.first hg.subset) ht.tail
    rw [Expr.allNodes_singleton] at hr
    refine ih₂ ns (hplain.tail.rest (grows_of_reads right).1) ?_
    have hafter : ∀ u ∈ s₁.ahead, t.pos < u.pos := hplain.head (grows_of_reads right).1.subset
    exact typed_operation hr hafter swap op
  | value inner noAssign ih => exact ih ns hplain ht
  | @assign s s₁ s₂ t l r left eq right ih₁ ih₂ =>
    have hg : s₂.ahead ⊆ t :: s₁.ahead :=
      List.subset_cons_of_subset t (grows_of_reads right).1.subset
    have htail := hplain.rest (grows_of_reads left).1
    have hl := ih₁ ns (hplain.first hg) ht
    rw [Expr.allNodes_singleton] at hl
    have hr := ih₂ (l.nodes ++ ns) htail.tail hl.tail
    rw [Expr.allNodes_singleton] at hr
    have hall : Typed declared? (.assign t.pos l r :: (r.nodes ++ (l.nodes ++ ns))) s₂.ahead
        (inferAssign s₂.locals s₁.fresh l r) := typed_assign left right ht hl hr hplain htail
    refine hall.congr fun e => ?_
    simp only [Expr.allNodes_singleton, Expr.nodes, List.mem_cons, List.mem_append, or_assoc,
      or_left_comm]

end StackC.Grammar
