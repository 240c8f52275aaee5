/-!
# Insertion-ordered finite maps

A table keeps its keys in the order of their first arrival: storing under a key that is
already present replaces the value and leaves the key where it was. Slots of a node,
feature values of an object, classifiers of a package and packages of a metamodel are all
tables, so the order in which anything is listed is the order kept here.
-/

namespace TreeInterchange

universe u v

/-- A finite map whose keys stay in the order of their first arrival. -/
structure Table (κ : Type u) (α : Type v) where
  entries : List (κ × α)
  nodup : (entries.map Prod.fst).Nodup

namespace Table

variable {κ : Type u} {α : Type v}

def empty : Table κ α := ⟨[], List.Pairwise.nil⟩

instance : Inhabited (Table κ α) := ⟨empty⟩

def keys (t : Table κ α) : List κ := t.entries.map Prod.fst

def values (t : Table κ α) : List α := t.entries.map Prod.snd

def size (t : Table κ α) : Nat := t.entries.length

/-- Every value is stored under the key that it has itself. -/
def KeyedBy (key : α → κ) (t : Table κ α) : Prop := ∀ e ∈ t.entries, e.1 = key e.2

theorem keyedBy_empty (key : α → κ) : KeyedBy key (empty : Table κ α) := by
  simp [KeyedBy, empty]

variable [DecidableEq κ]

/-- Replaces the value of `k` in place, or appends a new last entry. -/
def put (k : κ) (a : α) : List (κ × α) → List (κ × α)
  | [] => [(k, a)]
  | e :: es => if e.1 = k then (k, a) :: es else e :: put k a es

theorem keys_put (k : κ) (a : α) (es : List (κ × α)) :
    (put k a es).map Prod.fst =
      if k ∈ es.map Prod.fst then es.map Prod.fst else es.map Prod.fst ++ [k] := by
  induction es with
  | nil => simp [put]
  | cons e es ih =>
    by_cases h : e.1 = k
    · simp [put, h]
    · have h' : ¬ k = e.1 := fun he => h he.symm
      by_cases hk : k ∈ es.map Prod.fst
      · simp only [put, h, if_false, List.map_cons, ih, hk, if_true, List.mem_cons, or_true]
      · simp only [put, h, if_false, List.map_cons, ih, hk, List.mem_cons, h', or_self,
          List.cons_append]

theorem nodup_put (k : κ) (a : α) (es : List (κ × α)) (h : (es.map Prod.fst).Nodup) :
    ((put k a es).map Prod.fst).Nodup := by
  rw [keys_put]
  split
  · exact h
  · rename_i hk
    rw [List.nodup_append]
    refine ⟨h, List.pairwise_singleton _ _, ?_⟩
    intro x hx y hy hxy
    simp only [List.mem_singleton] at hy
    exact hk (hy ▸ hxy ▸ hx)

theorem lookup_put (k k' : κ) (a : α) (es : List (κ × α)) :
    (put k a es).lookup k' = if k = k' then some a else es.lookup k' := by
  induction es with
  | nil =>
    by_cases h : k = k'
    · subst h; simp [put]
    · have h' : ¬ k' = k := fun e => h e.symm
      have hb : (k' == k) = false := by simpa using h'
      simp [put, List.lookup_cons, h, hb]
  | cons e es ih =>
    obtain ⟨x, b⟩ := e
    by_cases hx : x = k
    · subst hx
      by_cases h : x = k'
      · subst h; simp [put]
      · have hb : (k' == x) = false := by simpa using fun e => h e.symm
        simp [put, List.lookup_cons, h, hb]
    · by_cases hk : k' = x
      · subst hk
        have hkk : ¬ k = k' := fun e => hx e.symm
        simp [put, hx, hkk]
      · have hb : (k' == x) = false := by simpa using hk
        simp [put, hx, List.lookup_cons, hb, ih]

def get? (t : Table κ α) (k : κ) : Option α := t.entries.lookup k

def contains (t : Table κ α) (k : κ) : Bool := (t.get? k).isSome

def insert (t : Table κ α) (k : κ) (a : α) : Table κ α :=
  ⟨put k a t.entries, nodup_put k a t.entries t.nodup⟩

def insertIfNew (t : Table κ α) (k : κ) (a : α) : Table κ α :=
  if t.contains k then t else t.insert k a

def adjust (t : Table κ α) (k : κ) (f : α → α) : Table κ α :=
  match t.get? k with
  | some a => t.insert k (f a)
  | none => t

def ofList (es : List (κ × α)) : Table κ α :=
  es.foldl (fun t e => t.insert e.1 e.2) empty

theorem KeyedBy.insert {key : α → κ} {t : Table κ α} (h : KeyedBy key t) (a : α) :
    KeyedBy key (t.insert (key a) a) := by
  have hput : ∀ es : List (κ × α), (∀ e ∈ es, e.1 = key e.2) →
      ∀ e ∈ put (key a) a es, e.1 = key e.2 := by
    intro es
    induction es with
    | nil => simp [put]
    | cons d es ih =>
      intro hes
      obtain ⟨hd, hes⟩ := List.forall_mem_cons.1 hes
      rw [put]
      split
      · exact List.forall_mem_cons.2 ⟨rfl, hes⟩
      · exact List.forall_mem_cons.2 ⟨hd, ih hes⟩
  exact hput t.entries h

@[simp] theorem get?_empty (k : κ) : (empty : Table κ α).get? k = none := rfl

theorem get?_insert (t : Table κ α) (k k' : κ) (a : α) :
    (t.insert k a).get? k' = if k = k' then some a else t.get? k' :=
  lookup_put k k' a t.entries

@[simp] theorem get?_insert_self (t : Table κ α) (k : κ) (a : α) :
    (t.insert k a).get? k = some a := by simp [get?_insert]

theorem keys_insert (t : Table κ α) (k : κ) (a : α) :
    (t.insert k a).keys = if k ∈ t.keys then t.keys else t.keys ++ [k] :=
  keys_put k a t.entries

theorem get?_adjust (t : Table κ α) (k k' : κ) (f : α → α) :
    (t.adjust k f).get? k' = if k = k' then (t.get? k').map f else t.get? k' := by
  unfold adjust
  split
  · rename_i a ha
    rw [get?_insert]
    split
    · rename_i h; subst h; simp [ha]
    · rfl
  · rename_i ha
    split
    · rename_i h; subst h; simp [ha]
    · rfl

end Table

end TreeInterchange
