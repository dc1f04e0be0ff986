import Mathlib.Data.List.Forall2
import StackC.Corpus.Golden
import StackC.Proofs.Corpus.Places
import StackC.Proofs.Outcome

/-! What bringing a document up to date replaces, and that it keeps all the rest. -/
namespace StackC.Corpus

open Markdown

def isHeading : Item → Bool
  | .heading _ => true
  | .fence _ => false

def program? : Item → Option Bytes
  | .fence f => if f.language == programLanguage then some f.content else none
  | .heading _ => none

/-- The last program behind the last heading. -/
def programBefore (before : List Item) : Option Bytes :=
  (before.reverse.takeWhile (!isHeading ·)).findSome? program?

/-- A fence that holds the output of a program, with the mode and the program. -/
structure Golden where
  fence : FencedCode
  mode : Mode
  program : Option Bytes
  deriving DecidableEq

/-- The item with a number, if it is a fence that holds the output of a program. -/
def golden? (items : List Item) (k : Nat) : Option Golden :=
  match items[k]? with
  | some (.fence f) =>
    (goldenMode? f.language).map fun mode => ⟨f, mode, programBefore (items.take k)⟩
  | _ => none

/-- The fences that hold the output of a program, in order. -/
def goldens (items : List Item) : List Golden :=
  (List.range items.length).filterMap (golden? items)

/-- The fence has to hold this text. -/
structure Golden.Renewed (doc : Bytes) (g : Golden) (out : Bytes) : Prop where
  output : ∃ p, g.program = some p ∧ (compile g.mode p).result = .ok out
  room : g.fence.hasRoomIn doc

def editsOf (doc : Bytes) (gs : List Golden) (outs : List Bytes) : List Edit :=
  (gs.zip outs).map fun x => ⟨x.1.fence.startIn doc, x.1.fence.stopIn doc, x.2⟩

/-- The text from `pos` on, with other texts in place of ranges that follow one another. -/
def spliced (doc : Bytes) (pos : Nat) : List Edit → Bytes
  | [] => doc.drop pos
  | e :: es => (doc.take e.start).drop pos ++ e.text ++ spliced doc e.stop es

/-- The ranges lie in the text behind `pos`, and each ends before the next begins. -/
inductive Increasing (doc : Bytes) : Nat → List Edit → Prop
  | nil {pos : Nat} : Increasing doc pos []
  | cons {pos : Nat} {e : Edit} {es : List Edit} (after : pos ≤ e.start)
      (ordered : e.start ≤ e.stop) (inside : e.stop ≤ doc.length)
      (rest : Increasing doc e.stop es) : Increasing doc pos (e :: es)

section Splicing

variable {doc : Bytes} {pos : Nat} {es : List Edit}

/-- Replacing one range after the other from the last one on does not move those before it. -/
theorem foldr_replace (h : Increasing doc pos es) :
    es.foldr Edit.replace doc = doc.take pos ++ spliced doc pos es := by
  induction h with
  | nil => exact (List.take_append_drop _ doc).symm
  | @cons pos e es after ordered inside rest ih =>
    have hstop : (doc.take e.stop).length = e.stop := List.length_take_of_le inside
    rw [List.foldr_cons, ih, Edit.replace, List.take_append_of_le_length (by omega),
      List.take_take, Nat.min_eq_left ordered, List.drop_left' hstop, spliced]
    have hkeep : doc.take pos ++ (doc.take e.start).drop pos = doc.take e.start := by
      rw [← List.take_append_drop pos (doc.take e.start), List.take_take, Nat.min_eq_left after,
        List.drop_left' (List.length_take_of_le (by omega))]
    rw [← List.append_assoc, ← List.append_assoc, hkeep]

/-- Edits that come in order are put in the reverse order. -/
theorem lastFirst_eq (h : es.Pairwise fun a b => a.start < b.start) :
    lastFirst es = es.reverse := by
  have sorted (es done : List Edit) (h : es.Pairwise fun a b => a.start < b.start)
      (hdone : ∀ x ∈ done, ∀ e ∈ es, x.start < e.start) :
      es.foldl (fun done e => e.insert done) done = es.reverse ++ done := by
    induction es generalizing done with
    | nil => rfl
    | cons e es ih =>
      have hinsert : e.insert done = e :: done := by
        cases done with
        | nil => rfl
        | cons x xs =>
          rw [Edit.insert, if_pos (hdone x List.mem_cons_self e List.mem_cons_self)]
      rw [List.pairwise_cons] at h
      rw [List.foldl_cons, hinsert, ih _ h.2, List.reverse_cons, List.append_assoc,
        List.singleton_append]
      exact List.forall_mem_cons.mpr ⟨h.1, fun x hx e' he' =>
        hdone x hx e' (List.mem_cons_of_mem _ he')⟩
  rw [lastFirst, sorted es [] h (by simp), List.append_nil]

theorem applyEdits_eq (h : Increasing doc 0 es) (hs : es.Pairwise fun a b => a.start < b.start) :
    applyEdits doc es = spliced doc 0 es := by
  rw [applyEdits, lastFirst_eq hs, List.foldl_reverse, foldr_replace h, List.take_zero,
    List.nil_append]

end Splicing

/-- The last program since the last heading behind an item, given that before it. -/
def programStep (input : Option Bytes) : Item → Option Bytes
  | .heading _ => none
  | .fence f => if f.language == programLanguage then some f.content else input

/-- The fences of the items that follow, given the last program since the last heading. -/
def goldensFrom (input : Option Bytes) : List Item → List Golden
  | [] => []
  | .heading text :: rest => goldensFrom (programStep input (.heading text)) rest
  | .fence f :: rest =>
    ((goldenMode? f.language).map fun mode => ⟨f, mode, input⟩).toList ++
      goldensFrom (programStep input (.fence f)) rest

section Goldens

variable {doc : Bytes} {input : Option Bytes} {items : List Item} {f : FencedCode} {mode : Mode}

private theorem programBefore_concat (before : List Item) (i : Item) :
    programBefore (before ++ [i]) = programStep (programBefore before) i := by
  rw [programBefore, List.reverse_concat]
  cases i with
  | heading text => rfl
  | fence f =>
    rw [List.takeWhile_cons_of_pos rfl, List.findSome?_cons, program?, programStep]
    split <;> simp_all [programBefore]

private theorem filterMap_golden? (before rest : List Item) :
    (List.range' before.length rest.length).filterMap (golden? (before ++ rest)) =
      goldensFrom (programBefore before) rest := by
  induction rest generalizing before with
  | nil => rfl
  | cons i rest ih =>
    have hrest := ih (before ++ [i])
    rw [List.append_assoc, List.singleton_append, List.length_append, List.length_singleton,
      programBefore_concat] at hrest
    have hat : (before ++ i :: rest)[before.length]? = some i := by simp
    rw [List.length_cons, List.range'_succ]
    cases i with
    | heading text =>
      rw [List.filterMap_cons_none (by rw [golden?, hat])]
      exact hrest
    | fence f =>
      have hgolden : golden? (before ++ .fence f :: rest) before.length =
          (goldenMode? f.language).map fun mode => ⟨f, mode, programBefore before⟩ := by
        rw [golden?, hat, List.take_left]
      rw [List.filterMap_cons, hgolden, goldensFrom, ← hrest]
      cases goldenMode? f.language <;> rfl

theorem goldens_eq (items : List Item) : goldens items = goldensFrom none items := by
  rw [goldens, List.range_eq_range']
  exact filterMap_golden? [] items

theorem language_of_goldenMode? {language : Bytes} (h : goldenMode? language = some mode) :
    mode ≠ .ast ∧ language = mode.text := by
  have hmem := List.mem_of_find?_eq_some h
  have htext := List.find?_some h
  rw [beq_iff_eq] at htext
  refine ⟨?_, htext.symm⟩
  rintro rfl
  simp at hmem

theorem goldenMode?_program : goldenMode? programLanguage = none := by
  decide

/-- A fence that holds the output of a program has an info string. -/
theorem infoStop_ne_none (h : f.Within doc) (hm : goldenMode? f.language = some mode) :
    f.infoStop ≠ none := by
  intro hnone
  rw [h.tagged hnone] at hm
  cases hm

private theorem refresh_eq_ok {e : Edit} (h : f.infoStop ≠ none) :
    refresh input mode (.ofCode doc f) = .ok e ↔
      ∃ out, Golden.Renewed doc ⟨f, mode, input⟩ out ∧ e = ⟨f.startIn doc, f.stopIn doc, out⟩ := by
  have hbody : (Fence.ofCode doc f).body = _ := f.bodyIn_eq doc h
  constructor
  · intro he
    cases input with
    | none => cases he
    | some i =>
      rw [refresh, hbody] at he
      cases hc : (compile mode i).result with
      | error => simp [hc] at he
      | ok out =>
        cases hroom : f.hasRoomIn doc with
        | false => simp [hc, hroom] at he
        | true =>
          simp only [hc, hroom, if_true, Except.ok.injEq] at he
          exact ⟨out, ⟨⟨i, rfl, hc⟩, hroom⟩, he.symm⟩
  · rintro ⟨out, ⟨⟨i, hi, hc⟩, hroom⟩, rfl⟩
    simp only at hi hc hroom
    rw [hi, refresh, hbody, hc, hroom]
    rfl

section Edits

variable {c : Fence} {bs : List Block}

private theorem edits_program (h : c.language = programLanguage) :
    edits input (.fence c :: bs) = edits (some c.content) bs := by
  simp [edits, h]

theorem edits_kept (hp : c.language ≠ programLanguage) (hm : goldenMode? c.language = none) :
    edits input (.fence c :: bs) = edits input bs := by
  simp [edits, hp, hm]

private theorem edits_golden {es : List Edit} (hm : goldenMode? c.language = some mode) :
    edits input (.fence c :: bs) = .ok es ↔
      ∃ e rest, refresh input mode c = .ok e ∧ edits input bs = .ok rest ∧ es = e :: rest := by
  have hp : c.language ≠ programLanguage := by
    intro hp
    rw [hp, goldenMode?_program] at hm
    cases hm
  rw [edits, if_neg (by simpa using hp), hm]
  simp only [Outcome.bind_eq_ok, Outcome.pure_eq, Except.ok.injEq]
  constructor
  · rintro ⟨e, he, rest, hrest, rfl⟩
    exact ⟨e, rest, he, hrest, rfl⟩
  · rintro ⟨e, rest, he, hrest, rfl⟩
    exact ⟨e, he, rest, hrest, rfl⟩

end Edits

theorem edits_eq_ok {es : List Edit} (h : ∀ f ∈ items.filterMap Item.fence?, f.Within doc) :
    edits input (items.map (Block.ofItem doc)) = .ok es ↔
      ∃ outs, List.Forall₂ (Golden.Renewed doc) (goldensFrom input items) outs ∧
        es = editsOf doc (goldensFrom input items) outs := by
  induction items generalizing input es with
  | nil =>
    constructor
    · intro h
      cases h
      exact ⟨[], .nil, rfl⟩
    · rintro ⟨outs, houts, rfl⟩
      cases houts
      rfl
  | cons i items ih =>
    cases i with
    | heading text => exact ih h
    | fence f =>
      rw [List.filterMap_cons_some (f := Item.fence?) rfl, List.forall_mem_cons] at h
      rw [List.map_cons, Block.ofItem, goldensFrom, programStep]
      by_cases hp : f.language = programLanguage
      · rw [edits_program hp, hp, goldenMode?_program, if_pos (beq_self_eq_true _)]
        exact ih h.2
      rw [if_neg (by simpa using hp)]
      cases hm : goldenMode? f.language with
      | none =>
        rw [edits_kept hp hm]
        exact ih h.2
      | some mode =>
        rw [edits_golden hm]
        simp only [refresh_eq_ok (infoStop_ne_none h.1 hm), ih h.2]
        constructor
        · rintro ⟨_, _, ⟨out, hout, rfl⟩, ⟨outs, houts, rfl⟩, rfl⟩
          exact ⟨out :: outs, .cons hout houts, rfl⟩
        · rintro ⟨_, houts, rfl⟩
          cases houts with
          | @cons _ out _ outs hout houts =>
            exact ⟨_, _, ⟨out, hout, rfl⟩, ⟨outs, houts, rfl⟩, rfl⟩

theorem fence_sublist (input : Option Bytes) (items : List Item) :
    ((goldensFrom input items).map Golden.fence).Sublist (items.filterMap Item.fence?) := by
  induction items generalizing input with
  | nil => exact .slnil
  | cons i items ih =>
    cases i with
    | heading text => exact ih _
    | fence f =>
      change (List.map _ _).Sublist (f :: items.filterMap Item.fence?)
      rw [goldensFrom]
      cases goldenMode? f.language with
      | none => exact (ih _).cons f
      | some mode => exact (ih _).cons_cons f

theorem goldenMode?_of_mem {g : Golden} (h : g ∈ goldensFrom input items) :
    goldenMode? g.fence.language = some g.mode := by
  induction items generalizing input with
  | nil => cases h
  | cons i items ih =>
    cases i with
    | heading text => exact ih h
    | fence f =>
      rcases List.mem_append.mp h with h | h
      · rw [Option.mem_toList, Option.map_eq_some_iff] at h
        obtain ⟨mode, hm, rfl⟩ := h
        exact hm
      · exact ih h

/-- A fence that holds the output of a program is a fence of the document. -/
theorem mem_of_mem_goldens {g : Golden} (h : g ∈ goldens items) :
    g.fence ∈ items.filterMap Item.fence? := by
  rw [goldens_eq] at h
  exact (fence_sublist none items).subset (List.mem_map_of_mem h)

/-- The ranges of the code of the fences follow one another. -/
theorem goldens_apart (h : InOrder doc items) :
    (goldens items).Pairwise (fun a b => a.fence.stopIn doc < b.fence.startIn doc) ∧
      ∀ g ∈ goldens items, g.fence.startIn doc ≤ g.fence.stopIn doc ∧
        (g.fence.hasRoomIn doc → g.fence.stopIn doc ≤ doc.length) := by
  have hwithin : ∀ g ∈ goldens items, g.fence.Within doc := fun g hg =>
    h.within _ (mem_of_mem_goldens hg)
  have hbefore : (goldens items).Pairwise fun a b => a.fence.Before doc b.fence := by
    rw [goldens_eq]
    exact List.pairwise_map.mp (h.before.sublist (fence_sublist none items))
  have hinfo : ∀ g ∈ goldens items, ∃ n, g.fence.infoStop = some n := by
    intro g hg
    have hm := goldenMode?_of_mem (goldens_eq items ▸ hg)
    exact Option.ne_none_iff_exists'.mp (infoStop_ne_none (hwithin g hg) hm)
  refine ⟨hbefore.imp_of_mem fun {a b} ha hb hab => ?_,
    fun g hg => ⟨(hwithin g hg).startIn_le, (hwithin g hg).stopIn_le⟩⟩
  obtain ⟨m, hm⟩ := hinfo a ha
  obtain ⟨n, hn⟩ := hinfo b hb
  exact hab.stopIn_lt (hwithin b hb) hm hn

end Goldens

section Edits

variable {doc : Bytes} {items : List Item} {gs : List Golden} {outs : List Bytes}

private theorem start_of_mem_editsOf {e : Edit} (h : e ∈ editsOf doc gs outs) :
    ∃ g ∈ gs, e.start = g.fence.startIn doc := by
  obtain ⟨x, hx, rfl⟩ := List.mem_map.mp h
  exact ⟨x.1, (List.of_mem_zip hx).1, rfl⟩

private theorem increasing_editsOf {pos : Nat}
    (hapart : gs.Pairwise fun a b => a.fence.stopIn doc < b.fence.startIn doc)
    (hin : ∀ g ∈ gs, g.fence.startIn doc ≤ g.fence.stopIn doc ∧
      (g.fence.hasRoomIn doc → g.fence.stopIn doc ≤ doc.length))
    (hpos : ∀ g ∈ gs, pos ≤ g.fence.startIn doc)
    (houts : List.Forall₂ (Golden.Renewed doc) gs outs) :
    Increasing doc pos (editsOf doc gs outs) ∧
      (editsOf doc gs outs).Pairwise fun a b => a.start < b.start := by
  induction houts generalizing pos with
  | nil => exact ⟨.nil, .nil⟩
  | @cons g out gs outs hout houts ih =>
    rw [List.pairwise_cons] at hapart
    rw [List.forall_mem_cons] at hin hpos
    have hrest := ih hapart.2 hin.2 fun g' hg' => Nat.le_of_lt (hapart.1 g' hg')
    refine ⟨.cons hpos.1 hin.1.1 (hin.1.2 hout.room) hrest.1, List.pairwise_cons.mpr ⟨?_, hrest.2⟩⟩
    intro e he
    obtain ⟨g', hg', hstart⟩ := start_of_mem_editsOf he
    exact hstart ▸ Nat.lt_of_le_of_lt hin.1.1 (hapart.1 g' hg')

/-- What is done to a document whose places are in order. -/
theorem updateBy_eq_ok {reader : Reader} {new : Bytes} (h : InOrder doc (reader doc)) :
    updateBy reader doc = .ok new ↔
      ∃ outs, List.Forall₂ (Golden.Renewed doc) (goldens (reader doc)) outs ∧
        new = spliced doc 0 (editsOf doc (goldens (reader doc)) outs) := by
  obtain ⟨hapart, hin⟩ := goldens_apart h
  have happly {outs : List Bytes}
      (houts : List.Forall₂ (Golden.Renewed doc) (goldens (reader doc)) outs) :
      applyEdits doc (editsOf doc (goldens (reader doc)) outs) =
        spliced doc 0 (editsOf doc (goldens (reader doc)) outs) := by
    obtain ⟨hincreasing, hstarts⟩ := increasing_editsOf hapart hin (fun _ _ => Nat.zero_le _) houts
    exact applyEdits_eq hincreasing hstarts
  rw [updateBy, Outcome.bind_eq_ok, blocksBy]
  constructor
  · rintro ⟨es, hes, hnew⟩
    obtain ⟨outs, houts, rfl⟩ := (edits_eq_ok h.within).mp hes
    rw [← goldens_eq] at houts hnew
    cases hnew
    exact ⟨outs, houts, happly houts⟩
  · rintro ⟨outs, houts, rfl⟩
    refine ⟨_, (edits_eq_ok h.within).mpr ⟨outs, goldens_eq _ ▸ houts, rfl⟩, ?_⟩
    rw [← goldens_eq, happly houts]
    rfl

theorem exists_renewed_iff : (∃ outs, List.Forall₂ (Golden.Renewed doc) gs outs) ↔
    ∀ g ∈ gs, ∃ out, g.Renewed doc out := by
  induction gs with
  | nil => simp
  | cons g gs ih =>
    rw [List.forall_mem_cons, ← ih]
    constructor
    · rintro ⟨_, houts⟩
      cases houts with
      | cons hout houts => exact ⟨⟨_, hout⟩, _, houts⟩
    · rintro ⟨⟨out, hout⟩, outs, houts⟩
      exact ⟨out :: outs, .cons hout houts⟩

end Edits

/-- Why a fence cannot be brought up to date: there is no program before it, the program does not
compile, or there is no room for code. -/
def Golden.Stuck (doc : Bytes) (g : Golden) : Prop :=
  g.program = none ∨ (∃ p e, g.program = some p ∧ (compile g.mode p).result = .error e) ∨
    g.fence.hasRoomIn doc = false

section Failure

variable {doc : Bytes} {g : Golden} {reader : Reader}

theorem Golden.exists_renewed_iff_not_stuck : (∃ out, g.Renewed doc out) ↔ ¬g.Stuck doc := by
  constructor
  · rintro ⟨out, ⟨p, hp, hc⟩, hroom⟩ (hnone | ⟨q, e, hq, he⟩ | hfull)
    · rw [hp] at hnone
      cases hnone
    · rw [hp, Option.some.injEq] at hq
      rw [← hq, hc] at he
      cases he
    · rw [hroom] at hfull
      cases hfull
  · intro h
    rw [Stuck, not_or, not_or] at h
    obtain ⟨hsome, hcompiles, hroom⟩ := h
    obtain ⟨p, hp⟩ := Option.ne_none_iff_exists'.mp hsome
    cases hc : (compile g.mode p).result with
    | error e => exact absurd ⟨p, e, hp, hc⟩ hcompiles
    | ok out => exact ⟨out, ⟨p, hp, hc⟩, Bool.of_not_eq_false hroom⟩

private theorem updateBy_eq_error (h : InOrder doc (reader doc)) :
    (∃ e, updateBy reader doc = .error e) ↔ ∃ g ∈ goldens (reader doc), g.Stuck doc := by
  have hfails : (∃ e, updateBy reader doc = .error e) ↔ ¬∃ new, updateBy reader doc = .ok new := by
    cases updateBy reader doc <;> simp
  have hsucceeds : (∃ new, updateBy reader doc = .ok new) ↔
      ∀ g ∈ goldens (reader doc), ∃ out, g.Renewed doc out := by
    rw [← exists_renewed_iff]
    simp only [updateBy_eq_ok h]
    constructor
    · rintro ⟨new, outs, houts, -⟩
      exact ⟨outs, houts⟩
    · rintro ⟨outs, houts⟩
      exact ⟨_, outs, houts, rfl⟩
  rw [hfails, hsucceeds]
  simp only [Golden.exists_renewed_iff_not_stuck, not_forall, not_not, exists_prop]

/-- Outside of other blocks, a fence has no room for code if it has no code and no closing line. -/
theorem hasRoomIn_of_outermost (hlib : CommonMark reader) (hout : Outermost (reader doc))
    (hg : g ∈ goldens (reader doc)) :
    g.fence.hasRoomIn doc = false ↔ g.fence.isUnfinished := by
  obtain ⟨ps, rfl, hlaid, hread⟩ := hlib doc hout
  rw [hread ps (replaces_refl ps)] at hg
  have hmem := mem_of_mem_goldens hg
  have hm := goldenMode?_of_mem (goldens_eq _ ▸ hg)
  rw [fences_itemsOf] at hmem
  obtain ⟨x, hx, hfence⟩ := List.mem_map.mp hmem
  have hstands := hlaid.stands x hx
  have hinfo : x.2.infoStop ≠ none := by
    simpa [Fenced.placed] using infoStop_ne_none hstands.within (hfence ▸ hm)
  have hlines : (x.2.placed x.1).lines.isEmpty = x.2.body.isEmpty := by
    rw [Fenced.placed]
    cases x.2.body <;> rfl
  rw [← hfence, ← Bool.not_eq_true, hstands.hasRoomIn_iff hinfo, FencedCode.isUnfinished, hlines,
    Fenced.placed]
  simp

end Failure

/-- Bringing a document up to date replaces the code of the fences that hold the output of a
program, each by the output of the last program before it since the last heading, and keeps every
other byte where it stands between them. The ranges of the code follow one another without touching.
It fails exactly if some such fence has no such program, its program does not compile, or it has no
code and the line below its opening line does not begin like one that closes a fence. Outside of
other blocks this last is so exactly if the fence has no code and no closing line. -/
theorem update_splices {reader : Reader} {doc : Bytes} (h : InOrder doc (reader doc)) :
    let gs := goldens (reader doc)
    (gs.Pairwise (fun a b => a.fence.stopIn doc < b.fence.startIn doc) ∧
      ∀ g ∈ gs, g.fence.startIn doc ≤ g.fence.stopIn doc ∧
        (g.fence.hasRoomIn doc → g.fence.stopIn doc ≤ doc.length)) ∧
    (∀ new, updateBy reader doc = .ok new ↔
      ∃ outs, List.Forall₂ (Golden.Renewed doc) gs outs ∧
        new = spliced doc 0 (editsOf doc gs outs)) ∧
    ((∃ e, updateBy reader doc = .error e) ↔ ∃ g ∈ gs, g.Stuck doc) ∧
    (CommonMark reader → Outermost (reader doc) →
      ∀ g ∈ gs, g.fence.hasRoomIn doc = false ↔ g.fence.isUnfinished) :=
  ⟨goldens_apart h, fun _ => updateBy_eq_ok h, updateBy_eq_error h,
    fun hlib hout _ hg => hasRoomIn_of_outermost hlib hout hg⟩

/-- Two fences for the tokens of a program, the first of them with nothing between its lines. -/
def twoListings (first second : String) : Bytes :=
  ascii "```c-program\nx<1\n```\n```tokens\n" ++ ascii first ++ ascii "```\n~~~tokens\n" ++
    ascii second ++ ascii "~~~\n"

theorem update_splices_twoListings :
    let doc := twoListings "" "y\n"
    let tokens := "IDENT \"x\"\nPUNCT \"<\"\nNUM \"1\"\n"
    (goldens (Markdown.read doc)).map (fun g => (g.fence.startIn doc, g.fence.stopIn doc)) =
        [(31, 31), (45, 47)] ∧
      update doc = .ok (twoListings tokens tokens) := by
  intro doc tokens
  have hin : InOrder doc (Markdown.read doc) := by decide +kernel
  have hgoldens : goldens (Markdown.read doc) = [
      ⟨⟨ascii "tokens", some 30, [], true, false⟩, .tokens, some (ascii "x<1")⟩,
      ⟨⟨ascii "tokens", some 44, [⟨45, 47, ascii "y\n"⟩], true, false⟩, .tokens,
        some (ascii "x<1")⟩] := by
    decide +kernel
  have hcompile : (compile .tokens (ascii "x<1")).result = .ok (ascii tokens) := by decide +kernel
  refine ⟨by rw [hgoldens]; decide, ((update_splices hin).2.1 _).mpr ?_⟩
  rw [hgoldens]
  exact ⟨[ascii tokens, ascii tokens], .cons ⟨⟨_, rfl, hcompile⟩, by decide +kernel⟩
    (.cons ⟨⟨_, rfl, hcompile⟩, rfl⟩ .nil), by decide +kernel⟩

/-- A fence in a quote, with nothing in it. The line with the marks does not belong to the quote: it
opens a fence of its own. -/
def quotedFence (code : String) : Bytes :=
  ascii "```c-program\nx\n```\n> ```tokens\n" ++ ascii code ++ ascii "```\n"

theorem not_forall_update_eq_error :
    ¬∀ doc, InOrder doc (Markdown.read doc) →
      (∃ g ∈ goldens (Markdown.read doc), g.fence.isUnfinished) → ∃ e, update doc = .error e := by
  intro h
  have hin : InOrder (quotedFence "") (Markdown.read (quotedFence "")) := by decide +kernel
  have hopen : ∃ g ∈ goldens (Markdown.read (quotedFence "")), g.fence.isUnfinished := by
    decide +kernel
  have hupdate : update (quotedFence "") = .ok (quotedFence "IDENT \"x\"\n") := by decide +kernel
  obtain ⟨e, he⟩ := h _ hin hopen
  rw [hupdate] at he
  cases he

end StackC.Corpus
