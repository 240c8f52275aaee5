import TreeInterchange.Conversion.Basic
import TreeInterchange.Proofs.OrderedTables
import TreeInterchange.Proofs.StatefulRuns
import TreeInterchange.Proofs.TreeListings

/-!
# What a conversion keeps a log of

A conversion, in either direction, records the image of each thing it converts, and puts
references on a list to be settled when all images are known. The log tells which things were
converted and which references wait, whatever the images are made of.

What settles the references is a loop. A loop that refuses some entries does what the loop
without the refusal does, up to the first such entry.
-/

namespace TreeInterchange

/-- The error is about a reference that leaves the tree. -/
def ConversionError.IsDangling : ConversionError → Prop
  | .danglingReference _ _ => True
  | _ => False

/-- A run that ends in a state as asked, or fails with any other error than a reference that leaves
the tree. -/
abbrev EndsClean {σ α : Type} (post : α → σ → Prop) (x : EStateM ConversionError σ α) (s : σ) :
    Prop :=
  StatefulRuns.Ends (fun e => ¬ e.IsDangling) post x s

/-- What there is room for: all, or only the first. -/
def admitted {α : Type} (many : Bool) (as : List α) : List α := if many then as else as.take 1

theorem admitted_map {α β : Type} (many : Bool) (g : α → β) (as : List α) :
    admitted many (as.map g) = (admitted many as).map g := by
  cases many
  · exact List.map_take.symm
  · rfl

/-- The image of each thing that was converted, the references that wait, and the number of places
that are taken. -/
structure ConversionLog (π : Type) where
  created : Table Nat Nat
  pending : List π
  size : Nat

namespace ConversionLog

variable {π : Type} {owner : π → Nat} {entry entry' : Nat → π → Prop} {L K : List Nat}
  {l l₁ l₂ : ConversionLog π} {y b : Nat}

/-- From one log to another exactly the things `L` were converted, into new images which are
different for different things, and what waits in addition are the entries of these things, each
once and with the image as its owner. -/
structure Gains (owner : π → Nat) (entry : Nat → π → Prop) (L : List Nat) (l l' : ConversionLog π) :
    Prop where
  size_le : l.size ≤ l'.size
  old : ∀ z ∉ L, l'.created.get? z = l.created.get? z
  new : ∀ z ∈ L, ∃ b, l'.created.get? z = some b ∧ l.size ≤ b ∧ b < l'.size
  apart : ∀ x ∈ L, ∀ y ∈ L, l'.created.get? x = l'.created.get? y → x = y
  waits : ∃ qs, l'.pending = l.pending ++ qs ∧ qs.Nodup ∧
    ∀ q, q ∈ qs ↔ ∃ z ∈ L, l'.created.get? z = some (owner q) ∧ entry z q

namespace Gains

theorem refl (l : ConversionLog π) : Gains owner entry [] l l :=
  ⟨Nat.le_refl _, fun _ _ => rfl, by simp, by simp, [], by simp, List.nodup_nil, by simp⟩

theorem bounds (h : Gains owner entry L l l₁) (hy : y ∈ L) (hb : l₁.created.get? y = some b) :
    l.size ≤ b ∧ b < l₁.size := by
  obtain ⟨c, hc, hbounds⟩ := h.new y hy
  rw [hb, Option.some.injEq] at hc
  exact hc ▸ hbounds

theorem congr (h : Gains owner entry L l l₁) (hentry : ∀ z ∈ L, ∀ q, entry z q ↔ entry' z q) :
    Gains owner entry' L l l₁ := by
  obtain ⟨qs, hqs, hn, hmem⟩ := h.waits
  refine ⟨h.size_le, h.old, h.new, h.apart, qs, hqs, hn, fun q => (hmem q).trans ?_⟩
  exact exists_congr fun z => and_congr_right fun hz => and_congr_right fun _ => hentry z hz q

theorem trans (h : Gains owner entry L l l₁) (h' : Gains owner entry K l₁ l₂) (hd : L.Disjoint K) :
    Gains owner entry (L ++ K) l l₂ := by
  have hkept : ∀ z ∈ L, l₂.created.get? z = l₁.created.get? z := fun z hz => h'.old z (hd hz)
  have hearly : ∀ x ∈ L, ∀ y ∈ K, l₁.created.get? x ≠ l₂.created.get? y := by
    intro x hx y hy hxy
    obtain ⟨b, hb, -, hlt⟩ := h.new x hx
    obtain ⟨c, hc, hle, -⟩ := h'.new y hy
    rw [hb, hc, Option.some.injEq] at hxy
    omega
  obtain ⟨qs, hqs, hn, hmem⟩ := h.waits
  obtain ⟨rs, hrs, hn', hmem'⟩ := h'.waits
  refine ⟨Nat.le_trans h.size_le h'.size_le, fun z hz => ?_, fun z hz => ?_,
    fun x hx y hy hxy => ?_, qs ++ rs, by rw [hrs, hqs, List.append_assoc], ?_, fun q => ?_⟩
  · rw [List.mem_append, not_or] at hz
    rw [h'.old z hz.2, h.old z hz.1]
  · rcases List.mem_append.1 hz with hz | hz
    · obtain ⟨b, hb, hle, hlt⟩ := h.new z hz
      exact ⟨b, by rw [hkept z hz, hb], hle, Nat.lt_of_lt_of_le hlt h'.size_le⟩
    · obtain ⟨b, hb, hle, hlt⟩ := h'.new z hz
      exact ⟨b, hb, Nat.le_trans h.size_le hle, hlt⟩
  · rcases List.mem_append.1 hx with hx | hx <;> rcases List.mem_append.1 hy with hy | hy
    · rw [hkept x hx, hkept y hy] at hxy
      exact h.apart x hx y hy hxy
    · exact absurd ((hkept x hx).symm.trans hxy) (hearly x hx y hy)
    · exact absurd ((hkept y hy).symm.trans hxy.symm) (hearly y hy x hx)
    · exact h'.apart x hx y hy hxy
  · -- an entry belongs to one image, and images of `K` are newer than those of `L`
    refine hn.append hn' fun q hq hr => ?_
    obtain ⟨x, hx, hxq, -⟩ := (hmem q).1 hq
    obtain ⟨z, hz, hzq, -⟩ := (hmem' q).1 hr
    exact hearly x hx z hz (hxq.trans hzq.symm)
  · rw [List.mem_append, hmem, hmem']
    simp only [List.mem_append, or_and_right, exists_or]
    refine or_congr_left (exists_congr fun z => and_congr_right fun hz => ?_)
    rw [hkept z hz]

theorem start {n : Nat} (hn : l.size < n) (hentry : ∀ q, ¬ entry y q) :
    Gains owner entry [y] l ⟨l.created.insert y l.size, l.pending, n⟩ := by
  refine ⟨Nat.le_of_lt hn, fun z hz => ?_, fun z hz => ?_, by simp, [], by simp, List.nodup_nil,
    by simp [hentry]⟩
  · rw [Table.get?_insert, if_neg fun e => hz (by simp [e])]
  · rw [List.mem_singleton.1 hz]
    exact ⟨l.size, Table.get?_insert_self _ _ _, Nat.le_refl _, hn⟩

theorem grow (h : Gains owner entry L l l₁) {n : Nat} (hn : l₁.size ≤ n) :
    Gains owner entry L l { l₁ with size := n } :=
  ⟨Nat.le_trans h.size_le hn, h.old, fun z hz => by
    obtain ⟨b, hb, hle, hlt⟩ := h.new z hz
    exact ⟨b, hb, hle, Nat.lt_of_lt_of_le hlt hn⟩, h.apart, h.waits⟩

end Gains

section Unfinished

variable {key : π → String} {done : List String} {name : String}

/-- Of the entries for `y`, only those for some names. -/
def UpTo (key : π → String) (y : Nat) (done : List String) (entry : Nat → π → Prop) :
    Nat → π → Prop :=
  fun z q => (z = y → key q ∈ done) ∧ entry z q

theorem Gains.pass (h : Gains owner (UpTo key y done entry) L l l₁)
    (hnone : ∀ q, entry y q → key q ≠ name) :
    Gains owner (UpTo key y (done ++ [name]) entry) L l l₁ := by
  refine h.congr fun z _ q => and_congr_left fun hq => ?_
  constructor
  · exact fun hin e => List.mem_append_left _ (hin e)
  · intro hin e
    subst e
    exact (List.mem_append.1 (hin rfl)).resolve_right fun hn =>
      hnone q hq (List.mem_singleton.1 hn)

theorem Gains.wait (h : Gains owner (UpTo key y done entry) L l l₁) (hy : y ∈ L)
    (hb : l₁.created.get? y = some b) (hnew : name ∉ done) {q : π}
    (hentry : ∀ r, r = q ↔ owner r = b ∧ key r = name ∧ entry y r) :
    Gains owner (UpTo key y (done ++ [name]) entry) L l
      { l₁ with pending := l₁.pending ++ [q] } := by
  obtain ⟨howner, hkey, hq⟩ := (hentry q).1 rfl
  obtain ⟨qs, hqs, hn, hmem⟩ := h.waits
  refine ⟨h.size_le, h.old, h.new, h.apart, qs ++ [q], ?_, ?_, fun r => ?_⟩
  · simp only [hqs, List.append_assoc]
  · refine hn.append (List.nodup_singleton q) (List.disjoint_singleton.2 fun hin => ?_)
    obtain ⟨z, hz, hzq, hdone, -⟩ := (hmem q).1 hin
    have hzy : z = y := h.apart z hz y hy (by rw [hzq, hb, howner])
    exact hnew (hkey ▸ hdone hzy)
  · rw [List.mem_append, hmem, List.mem_singleton]
    constructor
    · rintro (⟨z, hz, hzr, hin, hr⟩ | rfl)
      · exact ⟨z, hz, hzr, fun e => List.mem_append_left _ (hin e), hr⟩
      · exact ⟨y, hy, by rw [hb, howner], fun _ => List.mem_append_right _ (by simp [hkey]), hq⟩
    · rintro ⟨z, hz, hzr, hin, hr⟩
      by_cases hzy : z = y
      · subst hzy
        rcases List.mem_append.1 (hin rfl) with hdone | hname
        · exact .inl ⟨z, hz, hzr, fun _ => hdone, hr⟩
        · have hbr : owner r = b := Option.some.inj (hzr.symm.trans hb)
          exact .inr ((hentry r).2 ⟨hbr, List.mem_singleton.1 hname, hr⟩)
      · exact .inl ⟨z, hz, hzr, fun e => absurd e hzy, hr⟩

/-- What is converted while `y` is not finished. -/
theorem Gains.trans_upTo (h : Gains owner (UpTo key y done entry) L l l₁)
    (h' : Gains owner entry K l₁ l₂) (hd : L.Disjoint K) (hy : y ∈ L) :
    Gains owner (UpTo key y done entry) (L ++ K) l l₂ := by
  refine h.trans (h'.congr fun z hz q => ?_) hd
  have hne : z ≠ y := fun e => hd hy (e ▸ hz)
  simp [UpTo, hne]

theorem Gains.finish (h : Gains owner (UpTo key y done entry) L l l₁)
    (hall : ∀ q, entry y q → key q ∈ done) : Gains owner entry L l l₁ := by
  refine h.congr fun z _ q => and_iff_right_of_imp fun hq e => ?_
  subst e
  exact hall q hq

end Unfinished

def Dangles (created : Table Nat Nat) (targets : List Nat) : Prop :=
  ∃ d ∈ targets, created.contains d = false

theorem any_not_contains_iff {created : Table Nat Nat} {targets : List Nat} :
    targets.any (!created.contains ·) = true ↔ Dangles created targets := by
  simp [Dangles]

def image (l : ConversionLog π) (z : Nat) : Nat := (l.created.get? z).getD 0

theorem image_eq (h : l.created.get? y = some b) : l.image y = b := by
  rw [image, h]
  rfl

section Whole

variable {n : Nat} (h : Gains owner entry L ⟨.empty, [], n⟩ l)
include h

theorem Gains.get?_eq {z : Nat} : l.created.get? z = if z ∈ L then some (l.image z) else none := by
  by_cases hz : z ∈ L
  · obtain ⟨b, hb, -⟩ := h.new z hz
    rw [if_pos hz, image, hb]
    rfl
  · rw [if_neg hz, h.old z hz]
    rfl

theorem Gains.contains_iff {z : Nat} : l.created.contains z = true ↔ z ∈ L := by
  rw [Table.contains, h.get?_eq]
  by_cases hz : z ∈ L <;> simp [hz]

theorem Gains.image_inj {x z : Nat} (hx : x ∈ L) (hz : z ∈ L) (he : l.image x = l.image z) :
    x = z := by
  apply h.apart x hx z hz
  rw [h.get?_eq, h.get?_eq, if_pos hx, if_pos hz, he]

theorem Gains.nodup_pending : l.pending.Nodup := by
  obtain ⟨qs, hqs, hn, -⟩ := h.waits
  rwa [hqs]

theorem Gains.mem_pending_iff {q : π} :
    q ∈ l.pending ↔ ∃ z ∈ L, owner q = l.image z ∧ entry z q := by
  obtain ⟨qs, hqs, -, hmem⟩ := h.waits
  rw [hqs, List.nil_append, hmem]
  refine exists_congr fun z => and_congr_right fun hz => and_congr_left fun _ => ?_
  rw [h.get?_eq, if_pos hz, Option.some.injEq, eq_comm]

/-- No entry has a target without an image just when the targets of all entries were converted. -/
theorem Gains.not_dangles_iff (targets : π → List Nat) :
    (∀ q ∈ l.pending, ¬ Dangles l.created (targets q)) ↔
      ∀ z ∈ L, ∀ q, owner q = l.image z → entry z q → ∀ d ∈ targets q, d ∈ L := by
  constructor
  · intro hnone z hz q howner hq d hd
    by_contra hout
    refine hnone q (h.mem_pending_iff.2 ⟨z, hz, howner, hq⟩) ⟨d, hd, ?_⟩
    rw [← Bool.not_eq_true, h.contains_iff]
    exact hout
  · rintro hall q hq ⟨d, hd, hnot⟩
    obtain ⟨z, hz, howner, hentry⟩ := h.mem_pending_iff.1 hq
    rw [h.contains_iff.2 (hall z hz q howner hentry d hd)] at hnot
    cases hnot

theorem Gains.filterMap_get? (ds : List Nat) :
    ds.filterMap l.created.get? = (ds.filter (· ∈ L)).map l.image := by
  induction ds with
  | nil => rfl
  | cons d ds ih =>
    by_cases hd : d ∈ L
    · rw [List.filterMap_cons_some (by rw [h.get?_eq, if_pos hd]), ih,
        List.filter_cons_of_pos (by simpa using hd), List.map_cons]
    · rw [List.filterMap_cons_none (by rw [h.get?_eq, if_neg hd]), ih,
        List.filter_cons_of_neg (by simpa using hd)]

end Whole

end ConversionLog

namespace StatefulRuns

section Refusals

variable {ε σ α : Type} {step strict : α → EStateM ε σ Unit} {bad : α → Prop} {refusal : ε → Prop}
  {I : σ → Prop} {as : List α} {s t : σ}

/-- A strict step refuses what is bad and else does what the step does, in all states of a kind that
steps lead to from such states. -/
structure Refuses (bad : α → Prop) (refusal : ε → Prop) (I : σ → Prop)
    (step strict : α → EStateM ε σ Unit) : Prop where
  kept : ∀ {a s t}, I s → step a s = .ok () t → I t
  same : ∀ {a s}, I s → ¬ bad a → strict a s = step a s
  refused : ∀ {a s}, I s → bad a → ∃ e t, strict a s = .error e t ∧ refusal e

variable (h : Refuses bad refusal I step strict)
include h

theorem Refuses.forM_eq (hs : I s) (hgood : ∀ a ∈ as, ¬ bad a) :
    as.forM strict s = as.forM step s := by
  induction as generalizing s with
  | nil => rfl
  | cons a as ih =>
    have hsame := h.same hs (hgood a (by simp))
    cases hstep : step a s with
    | ok _ t =>
      rw [forM_cons_ok (hsame.trans hstep), forM_cons_ok hstep]
      exact ih (h.kept hs hstep) fun b hb => hgood b (by simp [hb])
    | error e t => exact (bind_error (hsame.trans hstep)).trans (bind_error hstep).symm

/-- Where the loop succeeds and there is a bad entry, the strict loop refuses it. -/
theorem Refuses.forM_error (hs : I s) (hok : as.forM step s = .ok () t) (hbad : ∃ a ∈ as, bad a) :
    ∃ e u, as.forM strict s = .error e u ∧ refusal e := by
  induction as generalizing s with
  | nil => simp at hbad
  | cons a as ih =>
    obtain ⟨u, hstep, hrest⟩ := of_forM_cons_ok hok
    by_cases ha : bad a
    · obtain ⟨e, t, herr, hrefusal⟩ := h.refused hs ha
      exact ⟨e, t, bind_error herr, hrefusal⟩
    · have hlater : ∃ b ∈ as, bad b := by
        obtain ⟨b, hb, hbad⟩ := hbad
        rcases List.mem_cons.1 hb with rfl | hb
        · exact absurd hbad ha
        · exact ⟨b, hb, hbad⟩
      rw [forM_cons_ok ((h.same hs ha).trans hstep)]
      exact ih (h.kept hs hstep) hrest hlater

end Refusals

end StatefulRuns

end TreeInterchange
