import Mathlib.Data.List.Nodup
import TreeInterchange.Table

/-!
# Entries of ordered tables

A table is determined by its entries, and since no key repeats, looking a key up and finding
it among the entries are the same thing. A list of entries without a repeated key is kept as
it stands when a table is made of it. Passing all values through a function commutes with
whatever is done to single keys.
-/

namespace TreeInterchange.Table

universe u v w

variable {κ : Type u} {α : Type v} [DecidableEq κ]

theorem lookup_eq_some_iff {es : List (κ × α)} (hn : (es.map Prod.fst).Nodup) {k : κ} {a : α} :
    es.lookup k = some a ↔ (k, a) ∈ es := by
  induction es with
  | nil => simp
  | cons e es ih =>
    obtain ⟨x, b⟩ := e
    simp only [List.map_cons, List.nodup_cons] at hn
    by_cases hk : k = x
    · subst hk
      have hnot : (k, a) ∉ es := fun hm => hn.1 (List.mem_map_of_mem (f := Prod.fst) hm)
      simp [hnot, eq_comm]
    · have hb : (k == x) = false := by simpa using hk
      simp [List.lookup_cons, hb, ih hn.2, hk]

theorem lookup_eq_none_iff {es : List (κ × α)} {k : κ} :
    es.lookup k = none ↔ k ∉ es.map Prod.fst := by
  induction es with
  | nil => simp
  | cons e es ih =>
    obtain ⟨x, b⟩ := e
    by_cases hk : k = x
    · subst hk; simp
    · have hb : (k == x) = false := by simpa using hk
      rw [List.lookup_cons, hb]
      simp [ih, hk]

theorem get?_eq_some_iff {t : Table κ α} {k : κ} {a : α} :
    t.get? k = some a ↔ (k, a) ∈ t.entries := lookup_eq_some_iff t.nodup

theorem get?_eq_none_iff {t : Table κ α} {k : κ} : t.get? k = none ↔ k ∉ t.keys :=
  lookup_eq_none_iff

theorem KeyedBy.key_eq {key : α → κ} {t : Table κ α} (h : KeyedBy key t) {k : κ} {a : α}
    (ha : t.get? k = some a) : key a = k :=
  (h _ (get?_eq_some_iff.1 ha)).symm

theorem mem_keys_iff {t : Table κ α} {k : κ} : k ∈ t.keys ↔ ∃ a, t.get? k = some a := by
  rw [← not_iff_not, ← get?_eq_none_iff, Option.eq_none_iff_forall_ne_some]
  simp

theorem mem_values_iff {t : Table κ α} {a : α} : a ∈ t.values ↔ ∃ k, t.get? k = some a := by
  simp only [values, List.mem_map, get?_eq_some_iff, Prod.exists]
  constructor
  · rintro ⟨k, b, hm, rfl⟩
    exact ⟨k, hm⟩
  · rintro ⟨k, hm⟩
    exact ⟨k, a, hm, rfl⟩

theorem keys_insert_of_mem {t : Table κ α} {k : κ} (h : k ∈ t.keys) (a : α) :
    (t.insert k a).keys = t.keys := by
  rw [keys_insert, if_pos h]

theorem get?_insertIfNew (t : Table κ α) (k k' : κ) (a : α) :
    (t.insertIfNew k a).get? k' = if k = k' then some ((t.get? k').getD a) else t.get? k' := by
  unfold insertIfNew contains
  by_cases h : k = k'
  · subst h
    cases hk : t.get? k <;> simp [hk]
  · cases t.get? k <;> simp [get?_insert, h]

@[simp] theorem keys_adjust (t : Table κ α) (k : κ) (g : α → α) :
    (t.adjust k g).keys = t.keys := by
  unfold adjust
  split
  · rename_i a ha
    exact keys_insert_of_mem (mem_keys_iff.2 ⟨a, ha⟩) _
  · rfl

theorem put_put (k : κ) (a b : α) (es : List (κ × α)) : put k b (put k a es) = put k b es := by
  induction es with
  | nil => simp [put]
  | cons e es ih =>
    by_cases h : e.1 = k
    · simp [put, h]
    · simp [put, h, ih]

@[simp] theorem insert_insert (t : Table κ α) (k : κ) (a b : α) :
    (t.insert k a).insert k b = t.insert k b := by
  have h : ((t.insert k a).insert k b).entries = (t.insert k b).entries := put_put k a b t.entries
  cases ht : (t.insert k a).insert k b
  cases ht' : t.insert k b
  simp_all

theorem put_self {k : κ} {a : α} {es : List (κ × α)} (h : es.lookup k = some a) :
    put k a es = es := by
  induction es with
  | nil => simp at h
  | cons e es ih =>
    obtain ⟨x, b⟩ := e
    by_cases hx : x = k
    · subst hx
      have hab : b = a := by simpa using h
      simp [put, hab]
    · have hb : (k == x) = false := by simpa using fun e => hx e.symm
      rw [List.lookup_cons, hb] at h
      simp [put, hx, ih h]

theorem insert_self {t : Table κ α} {k : κ} {a : α} (h : t.get? k = some a) : t.insert k a = t := by
  have he : (t.insert k a).entries = t.entries := put_self h
  cases ht : t.insert k a
  cases t
  simp_all

theorem put_of_not_mem {k : κ} (a : α) {es : List (κ × α)} (h : k ∉ es.map Prod.fst) :
    put k a es = es ++ [(k, a)] := by
  induction es with
  | nil => rfl
  | cons e es ih =>
    simp only [List.map_cons, List.mem_cons, not_or] at h
    have hk : ¬ e.1 = k := fun he => h.1 he.symm
    simp [put, hk, ih h.2]

theorem entries_insert_of_not_mem {t : Table κ α} {k : κ} (h : k ∉ t.keys) (a : α) :
    (t.insert k a).entries = t.entries ++ [(k, a)] := put_of_not_mem a h

private theorem entries_foldl_insert (es : List (κ × α)) (t : Table κ α)
    (h : (t.keys ++ es.map Prod.fst).Nodup) :
    (es.foldl (fun t e => t.insert e.1 e.2) t).entries = t.entries ++ es := by
  induction es generalizing t with
  | nil => simp
  | cons e es ih =>
    have hnot : e.1 ∉ t.entries.map Prod.fst := by
      rw [List.map_cons, List.nodup_append] at h
      exact fun hm => h.2.2 _ hm _ (by simp) rfl
    have hput : (t.insert e.1 e.2).entries = t.entries ++ [e] := entries_insert_of_not_mem hnot e.2
    rw [List.foldl_cons, ih, hput, List.append_assoc, List.singleton_append]
    simpa [keys, hput] using h

theorem entries_ofList {es : List (κ × α)} (h : (es.map Prod.fst).Nodup) :
    (ofList es).entries = es := by
  simpa [ofList, empty] using entries_foldl_insert es empty (by simpa [keys, empty] using h)

/-- Of entries that are stored one after the other, the last of a key counts. -/
theorem get?_foldl_insert (es : List (κ × α)) (t : Table κ α) (k : κ) :
    (es.foldl (fun t e => t.insert e.1 e.2) t).get? k = (es.reverse.lookup k).or (t.get? k) := by
  induction es generalizing t with
  | nil => simp
  | cons e es ih =>
    obtain ⟨x, a⟩ := e
    rw [List.foldl_cons, ih, get?_insert, List.reverse_cons, List.lookup_append, Option.or_assoc]
    congr 1
    by_cases hk : x = k
    · subst hk
      simp
    · have hb : (k == x) = false := by simpa using fun h => hk h.symm
      simp [hk, List.lookup_cons, hb]

/-- Of entries that give way to those before them, the first of a key counts. -/
theorem get?_foldl_insertIfNew (es : List (κ × α)) (t : Table κ α) (k : κ) :
    (es.foldl (fun t e => t.insertIfNew e.1 e.2) t).get? k = (t.get? k).or (es.lookup k) := by
  induction es generalizing t with
  | nil => simp
  | cons e es ih =>
    obtain ⟨x, a⟩ := e
    rw [List.foldl_cons, ih, get?_insertIfNew]
    by_cases hk : x = k
    · subst hk
      cases t.get? x <;> simp
    · have hb : (k == x) = false := by simpa using fun h => hk h.symm
      simp [hk, List.lookup_cons, hb]

theorem get?_ofList (es : List (κ × α)) (k : κ) : (ofList es).get? k = es.reverse.lookup k := by
  rw [ofList, get?_foldl_insert, get?_empty, Option.or_none]

theorem mem_values_ofList {es : List (κ × α)} {a : α} (h : a ∈ (ofList es).values) :
    a ∈ es.map Prod.snd := by
  have hall : ∀ (es : List (κ × α)) (t : Table κ α),
      a ∈ (es.foldl (fun t e => t.insert e.1 e.2) t).values →
        a ∈ t.values ∨ a ∈ es.map Prod.snd := by
    intro es
    induction es with
    | nil => exact fun t h => .inl h
    | cons e es ih =>
      intro t h
      rcases ih (t.insert e.1 e.2) h with h | h
      · obtain ⟨k, hk⟩ := mem_values_iff.1 h
        rw [get?_insert] at hk
        split at hk
        · exact .inr (by simp [Option.some.inj hk])
        · exact .inl (mem_values_iff.2 ⟨k, hk⟩)
      · exact .inr (by simp [h])
  rcases hall es empty h with h | h
  · cases h
  · exact h

theorem filterMap_get?_map {ι : Type w} {t : Table κ α} {k : ι → κ} {g : ι → α} {is : List ι}
    (h : ∀ i ∈ is, t.get? (k i) = some (g i)) : (is.map k).filterMap t.get? = is.map g := by
  induction is with
  | nil => rfl
  | cons i is ih => simp [h i (by simp), ih fun j hj => h j (by simp [hj])]

section MapValues

variable {β : Type w} (g : α → β)

omit [DecidableEq κ] in
theorem keys_map_values (es : List (κ × α)) :
    (es.map fun e => (e.1, g e.2)).map Prod.fst = es.map Prod.fst := by
  rw [List.map_map]
  rfl

/-- The table with every value passed through `g`. -/
def mapValues (t : Table κ α) : Table κ β where
  entries := t.entries.map fun e => (e.1, g e.2)
  nodup := by
    rw [keys_map_values]
    exact t.nodup

omit [DecidableEq κ] in
@[simp] theorem values_mapValues (t : Table κ α) : (t.mapValues g).values = t.values.map g := by
  simp [values, mapValues, Function.comp_def]

@[simp] theorem get?_mapValues (t : Table κ α) (k : κ) :
    (t.mapValues g).get? k = (t.get? k).map g := by
  obtain ⟨es, hn⟩ := t
  show (es.map fun e => (e.1, g e.2)).lookup k = (es.lookup k).map g
  clear hn
  induction es with
  | nil => rfl
  | cons e es ih =>
    rw [List.map_cons, List.lookup_cons, List.lookup_cons, ih]
    cases k == e.1 <;> rfl

@[simp] theorem contains_mapValues (t : Table κ α) (k : κ) :
    (t.mapValues g).contains k = t.contains k := by
  simp [contains]

omit [DecidableEq κ] in
theorem mapValues_eq_self {g : α → α} {t : Table κ α} (h : ∀ a ∈ t.values, g a = a) :
    t.mapValues g = t := by
  obtain ⟨es, hn⟩ := t
  have hentries : (es.map fun e => (e.1, g e.2)) = es := by
    conv_rhs => rw [← List.map_id es]
    refine List.map_congr_left fun e he => ?_
    rw [h e.2 (List.mem_map_of_mem he)]
    rfl
  simpa [mapValues] using hentries

theorem insert_mapValues (t : Table κ α) (k : κ) (a : α) :
    (t.mapValues g).insert k (g a) = (t.insert k a).mapValues g := by
  have hput : ∀ es : List (κ × α), put k (g a) (es.map fun e => (e.1, g e.2)) =
      (put k a es).map fun e => (e.1, g e.2) := by
    intro es
    induction es with
    | nil => rfl
    | cons e es ih =>
      simp only [List.map_cons, put, ih]
      split <;> rfl
  obtain ⟨es, hn⟩ := t
  simpa [insert, mapValues] using hput es

theorem adjust_mapValues {h : α → α} {h' : β → β} (hg : ∀ a, h' (g a) = g (h a)) (t : Table κ α)
    (k : κ) : (t.mapValues g).adjust k h' = (t.adjust k h).mapValues g := by
  unfold adjust
  rw [get?_mapValues]
  cases t.get? k with
  | none => rfl
  | some a =>
    show (t.mapValues g).insert k (h' (g a)) = (t.insert k (h a)).mapValues g
    rw [hg, insert_mapValues]

end MapValues

end TreeInterchange.Table
