import Mathlib.Data.List.Forall2

/-!
# Runs of stateful programs

How a sequence of steps that may fail behaves once the outcome of the first step is known, and
from this when it succeeds, what it ends in, and how two such sequences go side by side.
-/

namespace TreeInterchange.StatefulRuns

variable {ε σ α β : Type} {x : EStateM ε σ α} {k : α → EStateM ε σ β} {s t : σ}

theorem bind_ok {a : α} (h : x s = .ok a t) : (x >>= k) s = k a t := by
  simp only [bind, EStateM.bind, h]

theorem bind_error {e : ε} (h : x s = .error e t) : (x >>= k) s = .error e t := by
  simp only [bind, EStateM.bind, h]

theorem of_bind_ok {b : β} (h : (x >>= k) s = .ok b t) :
    ∃ a u, x s = .ok a u ∧ k a u = .ok b t := by
  cases hx : x s with
  | ok a u => exact ⟨a, u, rfl, by rwa [bind_ok hx] at h⟩
  | error e u => rw [bind_error hx] at h; cases h

theorem forM_cons_ok {a : α} {as : List α} {step : α → EStateM ε σ Unit}
    (h : step a s = .ok () t) : (a :: as).forM step s = as.forM step t := bind_ok h

theorem of_forM_cons_ok {a : α} {as : List α} {step : α → EStateM ε σ Unit}
    (h : (a :: as).forM step s = .ok () t) :
    ∃ u, step a s = .ok () u ∧ as.forM step u = .ok () t := by
  obtain ⟨_, u, hu, hrest⟩ := of_bind_ok h
  exact ⟨u, hu, hrest⟩

theorem mapM_cons_ok {a : α} {as : List α} {step : α → EStateM ε σ β} {b : β} {bs : List β} {u : σ}
    (h : step a s = .ok b u) (hs : as.mapM step u = .ok bs t) :
    (a :: as).mapM step s = .ok (b :: bs) t := by
  rw [List.mapM_cons, bind_ok h, bind_ok hs]
  rfl

theorem of_mapM_cons_ok {a : α} {as : List α} {step : α → EStateM ε σ β} {bs : List β}
    (h : (a :: as).mapM step s = .ok bs t) :
    ∃ b u cs, step a s = .ok b u ∧ as.mapM step u = .ok cs t ∧ bs = b :: cs := by
  rw [List.mapM_cons] at h
  obtain ⟨b, u, hb, h⟩ := of_bind_ok h
  obtain ⟨cs, v, hcs, h⟩ := of_bind_ok h
  cases h
  exact ⟨b, u, cs, hb, hcs, rfl⟩

theorem forM_tests_ok {as : List α} {test : α → Except ε Unit} (h : ∀ a ∈ as, test a = .ok ()) :
    as.forM test = .ok () := by
  induction as with
  | nil => rfl
  | cons a as ih =>
    show (test a >>= fun _ => as.forM test) = .ok ()
    rw [h a (by simp)]
    exact ih fun b hb => h b (by simp [hb])

theorem of_forM_tests_ok {as : List α} {test : α → Except ε Unit} {u : Unit}
    (h : as.forM test = .ok u) : ∀ a ∈ as, test a = .ok () := by
  induction as with
  | nil => simp
  | cons a as ih =>
    replace h : (test a >>= fun _ => as.forM test) = .ok u := h
    cases ha : test a with
    | error e => rw [ha] at h; cases h
    | ok v =>
      rw [ha] at h
      exact List.forall_mem_cons.2 ⟨ha, ih h⟩

theorem mapM_ok {as : List α} {step : α → Except ε β} {g : α → β}
    (h : ∀ a ∈ as, step a = .ok (g a)) : as.mapM step = .ok (as.map g) := by
  induction as with
  | nil => rfl
  | cons a as ih =>
    rw [List.mapM_cons, h a (by simp), ih fun b hb => h b (by simp [hb])]
    rfl

theorem exists_mapM_ok {as : List α} {step : α → Except ε β} (h : ∀ a ∈ as, ∃ b, step a = .ok b) :
    ∃ bs, as.mapM step = .ok bs := by
  induction as with
  | nil => exact ⟨[], rfl⟩
  | cons a as ih =>
    obtain ⟨b, hb⟩ := h a (by simp)
    obtain ⟨bs, hbs⟩ := ih fun c hc => h c (by simp [hc])
    refine ⟨b :: bs, ?_⟩
    rw [List.mapM_cons, hb, hbs]
    rfl

theorem mapM_congr {as : List α} {step step' : α → Except ε β} (h : ∀ a ∈ as, step a = step' a) :
    as.mapM step = as.mapM step' := by
  induction as with
  | nil => rfl
  | cons a as ih =>
    rw [List.mapM_cons, List.mapM_cons, h a (by simp), ih fun b hb => h b (by simp [hb])]

theorem mapM_map_ok {γ : Type} {as : List α} {write : α → β} {read : β → Except ε γ} {g : α → γ}
    (h : ∀ a ∈ as, read (write a) = .ok (g a)) : (as.map write).mapM read = .ok (as.map g) := by
  rw [List.mapM_map]
  exact mapM_ok h

theorem toOption_eq_some_iff {x : Except ε α} {a : α} : x.toOption = some a ↔ x = .ok a := by
  cases x <;> simp [Except.toOption]

theorem of_except_bind_ok {x : Except ε α} {k : α → Except ε β} {b : β} (h : (x >>= k) = .ok b) :
    ∃ a, x = .ok a ∧ k a = .ok b := by
  cases x with
  | ok a => exact ⟨a, rfl, h⟩
  | error e => cases h

theorem forall₂_of_mapM_ok {as : List α} {step : α → Except ε β} {bs : List β}
    (h : as.mapM step = .ok bs) : List.Forall₂ (fun a b => step a = .ok b) as bs := by
  induction as generalizing bs with
  | nil => cases h; exact .nil
  | cons a as ih =>
    rw [List.mapM_cons] at h
    obtain ⟨b, hb, h⟩ := of_except_bind_ok h
    obtain ⟨rest, hrest, h⟩ := of_except_bind_ok h
    cases h
    exact .cons hb (ih hrest)

theorem mapM_ok_of_forall₂ {as : List α} {step : α → Except ε β} {bs : List β}
    (h : List.Forall₂ (fun a b => step a = .ok b) as bs) : as.mapM step = .ok bs := by
  induction h with
  | nil => rfl
  | cons hab _ ih =>
    rw [List.mapM_cons, hab, ih]
    rfl

theorem exists_of_mem_forall₂ {R : α → β → Prop} {as : List α} {bs : List β}
    (h : List.Forall₂ R as bs) {a : α} (ha : a ∈ as) : ∃ b ∈ bs, R a b := by
  induction h with
  | nil => cases ha
  | @cons a' b as bs hab _ ih =>
    rcases List.mem_cons.1 ha with rfl | ha
    · exact ⟨b, by simp, hab⟩
    · obtain ⟨b', hb, h⟩ := ih ha
      exact ⟨b', by simp [hb], h⟩

theorem of_forall₂_getElem? {R : α → β → Prop} {as : List α} {bs : List β}
    (h : List.Forall₂ R as bs) {i : Nat} {a : α} {b : β} (ha : as[i]? = some a)
    (hb : bs[i]? = some b) : R a b := by
  obtain ⟨hi, rfl⟩ := List.getElem?_eq_some_iff.1 ha
  obtain ⟨hi', rfl⟩ := List.getElem?_eq_some_iff.1 hb
  exact (List.forall₂_iff_get.1 h).2 i hi hi'

theorem forall₂_iff_getElem? {R : α → β → Prop} {as : List α} {bs : List β} :
    List.Forall₂ R as bs ↔ as.length = bs.length ∧
      ∀ (i : Nat) a b, as[i]? = some a → bs[i]? = some b → R a b := by
  constructor
  · intro h
    exact ⟨h.length_eq, fun i a b => of_forall₂_getElem? h⟩
  · rintro ⟨hlength, h⟩
    refine List.forall₂_iff_get.2 ⟨hlength, fun i ha hb => h i _ _ ?_ ?_⟩
    · exact List.getElem?_eq_getElem ha
    · exact List.getElem?_eq_getElem hb

theorem forall₂_comp {γ : Type} {R : α → β → Prop} {S : β → γ → Prop} {as : List α} {bs : List β}
    {cs : List γ} (h : List.Forall₂ R as bs) (h' : List.Forall₂ S bs cs) :
    List.Forall₂ (fun a c => ∃ b, R a b ∧ S b c) as cs := by
  induction h generalizing cs with
  | nil =>
    cases h'
    exact .nil
  | cons hab _ ih =>
    cases h' with
    | cons hbc hrest => exact .cons ⟨_, hab, hbc⟩ (ih hrest)

theorem map_eq_of_forall₂ {γ : Type} {f : α → γ} {g : β → γ} {as : List α} {bs : List β}
    (h : List.Forall₂ (fun a b => f a = g b) as bs) : as.map f = bs.map g := by
  induction h with
  | nil => rfl
  | cons hab _ ih => rw [List.map_cons, List.map_cons, hab, ih]

theorem forall₂_transfer {γ δ : Type} {R : α → β → Prop} {S : α → γ → Prop} {S' : β → δ → Prop}
    {T : γ → δ → Prop} {as : List α} {bs : List β} {cs : List γ} (h : List.Forall₂ R as bs)
    (hcs : List.Forall₂ S as cs) (hstep : ∀ a b c, R a b → S a c → ∃ d, S' b d ∧ T c d) :
    ∃ ds, List.Forall₂ S' bs ds ∧ List.Forall₂ T cs ds := by
  induction h generalizing cs with
  | nil =>
    cases hcs
    exact ⟨[], .nil, .nil⟩
  | cons hab _ ih =>
    cases hcs with
    | cons hac hrest =>
      obtain ⟨d, hd, hcd⟩ := hstep _ _ _ hab hac
      obtain ⟨ds, hds, hcds⟩ := ih hrest
      exact ⟨d :: ds, .cons hd hds, .cons hcd hcds⟩

theorem mapM_zipIdx_eq_ok_iff {as : List α} {step : Nat → α → Except ε β} {bs : List β} :
    (as.zipIdx.mapM fun e => step e.2 e.1) = .ok bs ↔ as.length = bs.length ∧
      ∀ i a b, as[i]? = some a → bs[i]? = some b → step i a = .ok b := by
  have hplaces : List.Forall₂ (fun e b => step e.2 e.1 = .ok b) as.zipIdx bs ↔
      as.length = bs.length ∧
        ∀ i a b, as[i]? = some a → bs[i]? = some b → step i a = .ok b := by
    rw [forall₂_iff_getElem?, List.length_zipIdx]
    refine and_congr_right fun _ => ⟨fun h i a b ha hb => ?_, fun h i e b he hb => ?_⟩
    · exact h i (a, i) b (by simp [List.getElem?_zipIdx, ha]) hb
    · rw [List.getElem?_zipIdx] at he
      obtain ⟨a, ha, rfl⟩ := Option.map_eq_some_iff.1 he
      simpa using h i a b ha hb
  exact ⟨fun h => hplaces.1 (forall₂_of_mapM_ok h), fun h => mapM_ok_of_forall₂ (hplaces.2 h)⟩

theorem exists_mem_of_mapM_ok {as : List α} {step : α → Except ε β} {bs : List β} {a : α}
    (h : as.mapM step = .ok bs) (ha : a ∈ as) : ∃ b ∈ bs, step a = .ok b :=
  exists_of_mem_forall₂ (forall₂_of_mapM_ok h) ha

theorem exists_of_mem_mapM_ok {as : List α} {step : α → Except ε β} {bs : List β} {b : β}
    (h : as.mapM step = .ok bs) (hb : b ∈ bs) : ∃ a ∈ as, step a = .ok b :=
  exists_of_mem_forall₂ (forall₂_of_mapM_ok h).flip hb

theorem exists_mapM_ok_iff {as : List α} {step : α → Except ε β} :
    (∃ bs, as.mapM step = .ok bs) ↔ ∀ a ∈ as, ∃ b, step a = .ok b := by
  constructor
  · rintro ⟨bs, hbs⟩ a ha
    obtain ⟨b, -, hb⟩ := exists_mem_of_mapM_ok hbs ha
    exact ⟨b, hb⟩
  · exact exists_mapM_ok

section Succeeds

variable {P Q : Prop}

/-- From every state, the run succeeds if and only if `P` holds. -/
def Succeeds (x : EStateM ε σ α) (P : Prop) : Prop := ∀ s, (∃ a t, x s = .ok a t) ↔ P

theorem succeeds_of_ok (h : ∀ s, ∃ a t, x s = .ok a t) : Succeeds x True :=
  fun s => iff_of_true (h s) trivial

theorem Succeeds.congr (h : Succeeds x P) (hPQ : P ↔ Q) : Succeeds x Q :=
  fun s => (h s).trans hPQ

theorem Succeeds.bind (hx : Succeeds x P) (hk : ∀ a, Succeeds (k a) Q) :
    Succeeds (x >>= k) (P ∧ Q) := by
  intro s
  constructor
  · rintro ⟨b, t, h⟩
    obtain ⟨a, u, ha, hb⟩ := of_bind_ok h
    exact ⟨(hx s).1 ⟨a, u, ha⟩, (hk a u).1 ⟨b, t, hb⟩⟩
  · rintro ⟨hP, hQ⟩
    obtain ⟨a, u, ha⟩ := (hx s).2 hP
    obtain ⟨b, t, hb⟩ := (hk a u).2 hQ
    exact ⟨b, t, by rw [bind_ok ha, hb]⟩

/-- What follows a step that always succeeds decides. -/
theorem Succeeds.after (hx : Succeeds x True) (hk : ∀ a, Succeeds (k a) Q) :
    Succeeds (x >>= k) Q :=
  (hx.bind hk).congr (iff_of_eq (true_and Q))

theorem Succeeds.before (hx : Succeeds x P) (hk : ∀ a, Succeeds (k a) True) :
    Succeeds (x >>= k) P :=
  (hx.bind hk).congr (iff_of_eq (and_true P))

theorem Succeeds.forM {as : List α} {step : α → EStateM ε σ Unit} {R : α → Prop}
    (h : ∀ a ∈ as, Succeeds (step a) (R a)) : Succeeds (as.forM step) (∀ a ∈ as, R a) := by
  induction as with
  | nil => exact (succeeds_of_ok fun s => ⟨(), s, rfl⟩).congr (by simp)
  | cons a as ih =>
    have hrest := ih fun b hb => h b (List.mem_cons_of_mem a hb)
    exact ((h a List.mem_cons_self).bind fun _ => hrest).congr List.forall_mem_cons.symm

theorem Succeeds.mapM {as : List α} {step : α → EStateM ε σ β} {R : α → Prop}
    (h : ∀ a ∈ as, Succeeds (step a) (R a)) : Succeeds (as.mapM step) (∀ a ∈ as, R a) := by
  induction as with
  | nil => exact (succeeds_of_ok fun s => ⟨[], s, rfl⟩).congr (by simp)
  | cons a as ih =>
    have hrest := ih fun b hb => h b (List.mem_cons_of_mem a hb)
    rw [List.mapM_cons]
    refine ((h a List.mem_cons_self).bind fun _ => hrest.before fun _ => ?_).congr
      List.forall_mem_cons.symm
    exact succeeds_of_ok fun s => ⟨_, s, rfl⟩

end Succeeds

section Ends

variable {allowed : ε → Prop} {post : α → σ → Prop} {post' : β → σ → Prop}

/-- A result as asked, or an error that is allowed. -/
def Gives (allowed : ε → Prop) (result : α → Prop) : Except ε α → Prop
  | .ok a => result a
  | .error e => allowed e

/-- A run that succeeds with a result and in a state as asked, or fails with an error that is
allowed. -/
def Ends (allowed : ε → Prop) (post : α → σ → Prop) (x : EStateM ε σ α) (s : σ) : Prop :=
  match x s with
  | .ok a t => post a t
  | .error e _ => allowed e

theorem ends_ok {a : α} (h : x s = .ok a t) (hp : post a t) : Ends allowed post x s := by
  rw [Ends, h]
  exact hp

theorem ends_error {e : ε} (h : x s = .error e t) (he : allowed e) : Ends allowed post x s := by
  rw [Ends, h]
  exact he

theorem ends_bind_ok {a : α} (h : x s = .ok a t) (hk : Ends allowed post' (k a) t) :
    Ends allowed post' (x >>= k) s := by
  rw [Ends, bind_ok h]
  exact hk

theorem Ends.bind (h : Ends allowed post x s) (hk : ∀ a t, post a t → Ends allowed post' (k a) t) :
    Ends allowed post' (x >>= k) s := by
  unfold Ends at h
  split at h
  · rename_i a t hx
    exact ends_bind_ok hx (hk a t h)
  · rename_i e t hx
    exact ends_error (bind_error hx) h

theorem Ends.imp {post₁ : α → σ → Prop} (h : Ends allowed post x s)
    (himp : ∀ a t, post a t → post₁ a t) : Ends allowed post₁ x s := by
  unfold Ends at h ⊢
  split at h
  · exact himp _ _ h
  · exact h

theorem Ends.of_ok {a : α} (h : Ends allowed post x s) (hx : x s = .ok a t) : post a t := by
  rwa [Ends, hx] at h

theorem Ends.of_error {e : ε} (h : Ends allowed post x s) (hx : x s = .error e t) : allowed e := by
  rwa [Ends, hx] at h

theorem Ends.forM {I : σ → Prop} {as : List α} {step : α → EStateM ε σ Unit} (h : I s)
    (hstep : ∀ a ∈ as, ∀ s, I s → Ends allowed (fun _ => I) (step a) s) :
    Ends allowed (fun _ => I) (as.forM step) s := by
  induction as generalizing s with
  | nil => exact ends_ok rfl h
  | cons a as ih =>
    refine (hstep a (by simp) s h).bind fun _ t ht => ?_
    exact ih ht fun b hb => hstep b (by simp [hb])

theorem Ends.mapM {I : List β → σ → Prop} {done : List β} {as : List α}
    {step : α → EStateM ε σ β} (h : I done s)
    (hstep : ∀ a ∈ as, ∀ done s, I done s →
      Ends allowed (fun b t => I (done ++ [b]) t) (step a) s) :
    Ends allowed (fun bs t => I (done ++ bs) t) (as.mapM step) s := by
  induction as generalizing s done with
  | nil => exact ends_ok rfl (by simpa using h)
  | cons a as ih =>
    rw [List.mapM_cons]
    refine (hstep a (by simp) done s h).bind fun b t ht => ?_
    refine (ih ht fun c hc => hstep c (by simp [hc])).bind fun bs u hu => ?_
    exact ends_ok rfl (by simpa using hu)

theorem Ends.forM_each {P : α → Prop} {as : List α} {step : α → EStateM ε σ Unit}
    (hstep : ∀ a ∈ as, ∀ s, Ends allowed (fun _ _ => P a) (step a) s) (s : σ) :
    Ends allowed (fun _ _ => ∀ a ∈ as, P a) (as.forM step) s := by
  induction as generalizing s with
  | nil => exact ends_ok rfl (by simp)
  | cons a as ih =>
    refine (hstep a (by simp) s).bind fun _ t ha => ?_
    refine (ih (fun b hb => hstep b (by simp [hb])) t).imp fun _ _ has => ?_
    exact List.forall_mem_cons.2 ⟨ha, has⟩

theorem Ends.mapM_each {P : α → Prop} {as : List α} {step : α → EStateM ε σ β}
    (hstep : ∀ a ∈ as, ∀ s, Ends allowed (fun _ _ => P a) (step a) s) (s : σ) :
    Ends allowed (fun _ _ => ∀ a ∈ as, P a) (as.mapM step) s := by
  induction as generalizing s with
  | nil => exact ends_ok rfl (by simp)
  | cons a as ih =>
    rw [List.mapM_cons]
    refine (hstep a (by simp) s).bind fun _ t ha => ?_
    refine (ih (fun b hb => hstep b (by simp [hb])) t).bind fun _ _ has => ?_
    exact ends_ok rfl (List.forall_mem_cons.2 ⟨ha, has⟩)

theorem Gives.imp_both {allowed' : ε → Prop} {result result' : α → Prop} {x : Except ε α}
    (h : Gives allowed result x) (herror : ∀ e, allowed e → allowed' e)
    (hresult : ∀ a, result a → result' a) : Gives allowed' result' x := by
  cases x with
  | ok a => exact hresult a h
  | error e => exact herror e h

theorem Gives.imp {result result' : α → Prop} {e : Except ε α} (h : Gives allowed result e)
    (himp : ∀ a, result a → result' a) : Gives allowed result' e :=
  h.imp_both (fun _ => id) himp

theorem Gives.bind {result : α → Prop} {result' : β → Prop} {x : Except ε α}
    {k : α → Except ε β} (h : Gives allowed result x)
    (hk : ∀ a, result a → Gives allowed result' (k a)) : Gives allowed result' (x >>= k) := by
  cases x with
  | ok a => exact hk a h
  | error e => exact h

theorem Gives.mapM {result : β → Prop} {as : List α} {step : α → Except ε β}
    (h : ∀ a ∈ as, Gives allowed result (step a)) :
    Gives allowed (fun bs => ∀ b ∈ bs, result b) (as.mapM step) := by
  induction as with
  | nil => simp [Gives, pure, Except.pure]
  | cons a as ih =>
    have ha := h a (by simp)
    have has := ih fun b hb => h b (by simp [hb])
    rw [List.mapM_cons]
    cases hstep : step a with
    | error e =>
      rw [hstep] at ha
      exact ha
    | ok b =>
      rw [hstep] at ha
      cases hrest : as.mapM step with
      | error e =>
        rw [hrest] at has
        exact has
      | ok bs =>
        rw [hrest] at has
        exact List.forall_mem_cons.2 ⟨ha, has⟩

theorem exists_of_mapM_error {as : List α} {step : α → Except ε β} {e : ε}
    (h : as.mapM step = .error e) : ∃ a ∈ as, step a = .error e := by
  have hgives : Gives (fun e => ∃ a ∈ as, step a = .error e) (fun bs => ∀ b ∈ bs, True)
      (as.mapM step) := by
    apply Gives.mapM
    intro a ha
    cases hstep : step a with
    | ok b => trivial
    | error e => exact ⟨a, ha, hstep⟩
  rw [h] at hgives
  exact hgives

end Ends

section Tracks

/-- The outcome of a run, with its error, its state and its result carried elsewhere. -/
def carry (onError : ε → ε) (onState : σ → σ) (onResult : α → α) :
    EStateM.Result ε σ α → EStateM.Result ε σ α
  | .ok a s => .ok (onResult a) (onState s)
  | .error e s => .error (onError e) (onState s)

/-- Whatever state `x` starts in, `y` takes the state that it is carried to where `x` takes it. -/
def Tracks (onError : ε → ε) (onState : σ → σ) (onResult : α → α) (x y : EStateM ε σ α) : Prop :=
  ∀ s, y (onState s) = carry onError onState onResult (x s)

variable {onError : ε → ε} {onState : σ → σ} {onResult : α → α} {onResult' : β → β}
  {y : EStateM ε σ α} {k' : α → EStateM ε σ β}

theorem tracks_pure {a b : α} (h : onResult a = b) :
    Tracks onError onState onResult (pure a) (pure b) := by
  subst h
  exact fun _ => rfl

theorem tracks_modify {g g' : σ → σ} (h : ∀ s, g' (onState s) = onState (g s)) :
    Tracks onError onState id (modify g) (modify g') := by
  intro s
  show EStateM.Result.ok () (g' (onState s)) = .ok () (onState (g s))
  rw [h]

theorem tracks_get : Tracks onError onState onState (get : EStateM ε σ σ) get := fun _ => rfl

theorem Tracks.bind (hx : Tracks onError onState onResult x y)
    (hk : ∀ a, Tracks onError onState onResult' (k a) (k' (onResult a))) :
    Tracks onError onState onResult' (x >>= k) (y >>= k') := by
  intro s
  have hy := hx s
  cases h : x s with
  | ok a t =>
    rw [h] at hy
    rw [bind_ok h, bind_ok hy]
    exact hk a t
  | error e t =>
    rw [h] at hy
    rw [bind_error h, bind_error hy]
    rfl

theorem Tracks.map {g g' : α → β} (hx : Tracks onError onState onResult x y)
    (hg : ∀ a, onResult' (g a) = g' (onResult a)) :
    Tracks onError onState onResult' (x >>= fun a => pure (g a)) (y >>= fun a => pure (g' a)) :=
  hx.bind fun a => tracks_pure (hg a)

/-- Loops over the same things, named elsewhere in another way. -/
theorem Tracks.forM {as : List α} {step step' : α → EStateM ε σ Unit} (φ : α → α)
    (h : ∀ a ∈ as, Tracks onError onState id (step a) (step' (φ a))) :
    Tracks onError onState id (as.forM step) ((as.map φ).forM step') := by
  induction as with
  | nil => exact tracks_pure rfl
  | cons a as ih =>
    have hrest := ih fun b hb => h b (List.mem_cons_of_mem a hb)
    exact (h a List.mem_cons_self).bind fun _ => hrest

theorem Tracks.forM_same {as : List α} {step step' : α → EStateM ε σ Unit}
    (h : ∀ a ∈ as, Tracks onError onState id (step a) (step' a)) :
    Tracks onError onState id (as.forM step) (as.forM step') := by
  simpa using Tracks.forM id h

theorem Tracks.mapM {as : List α} {step step' : α → EStateM ε σ β}
    (h : ∀ a ∈ as, Tracks onError onState onResult' (step a) (step' a)) :
    Tracks onError onState (List.map onResult') (as.mapM step) (as.mapM step') := by
  induction as with
  | nil => exact tracks_pure rfl
  | cons a as ih =>
    have hrest := ih fun b hb => h b (List.mem_cons_of_mem a hb)
    rw [List.mapM_cons, List.mapM_cons]
    exact (h a List.mem_cons_self).bind fun _ => hrest.map fun _ => rfl

end Tracks

section EndsAlike

variable {R : ε → ε → Prop} {y : EStateM ε σ α} {k' : α → EStateM ε σ β}

/-- Two outcomes in the same state, with the same result or with errors that `R` relates. -/
inductive EndsAlike (R : ε → ε → Prop) : EStateM.Result ε σ α → EStateM.Result ε σ α → Prop
  | ok (a : α) (s : σ) : EndsAlike R (.ok a s) (.ok a s)
  | error {e e' : ε} (h : R e e') (s : σ) : EndsAlike R (.error e s) (.error e' s)

theorem EndsAlike.refl (hR : ∀ e, R e e) (r : EStateM.Result ε σ α) : EndsAlike R r r := by
  cases r with
  | ok a s => exact .ok a s
  | error e s => exact .error (hR e) s

theorem EndsAlike.bind (h : EndsAlike R (x s) (y s)) (hk : ∀ a t, EndsAlike R (k a t) (k' a t)) :
    EndsAlike R ((x >>= k) s) ((y >>= k') s) := by
  generalize hx : x s = r at h
  generalize hy : y s = r' at h
  cases h with
  | ok a t =>
    rw [bind_ok hx, bind_ok hy]
    exact hk a t
  | error he t =>
    rw [bind_error hx, bind_error hy]
    exact .error he t

theorem EndsAlike.bind_same (hR : ∀ e, R e e)
    (hk : ∀ a t, x s = .ok a t → EndsAlike R (k a t) (k' a t)) :
    EndsAlike R ((x >>= k) s) ((x >>= k') s) := by
  cases hx : x s with
  | ok a t =>
    rw [bind_ok hx, bind_ok hx]
    exact hk a t hx
  | error e t =>
    rw [bind_error hx, bind_error hx]
    exact .error (hR e) t

theorem EndsAlike.forM {as : List α} {step step' : α → EStateM ε σ Unit}
    (h : ∀ a ∈ as, ∀ s, EndsAlike R (step a s) (step' a s)) (s : σ) :
    EndsAlike R (as.forM step s) (as.forM step' s) := by
  induction as generalizing s with
  | nil => exact .ok () s
  | cons a as ih =>
    exact (h a List.mem_cons_self s).bind fun _ =>
      ih fun b hb => h b (List.mem_cons_of_mem a hb)

/-- Loops over lists whose entries are dealt with alike, one by one. -/
theorem EndsAlike.mapM {as bs : List α} {step : α → EStateM ε σ β}
    (h : List.Forall₂ (fun a b => ∀ s, EndsAlike R (step a s) (step b s)) as bs) (s : σ) :
    EndsAlike R (as.mapM step s) (bs.mapM step s) := by
  induction h generalizing s with
  | nil => exact .ok [] s
  | cons hab _ ih =>
    rw [List.mapM_cons, List.mapM_cons]
    exact (hab s).bind fun b t => (ih t).bind fun bs u => .ok (b :: bs) u

end EndsAlike

end TreeInterchange.StatefulRuns
