import TreeInterchange.Proofs.ExportedTypes

/-!
# Deriving packages again

Types that a catalog already holds for the classes of a package do not matter when the package
is derived. A type is built from those of the supertypes of its class, and by then each of these
is from another package or has just been derived itself. Two catalogs that agree outside the
packages therefore give the same types, in one order, and end up with the same types and
enumerations for the packages. In particular a second run finds everything as it leaves it.
-/

namespace TreeInterchange

/-- A name that is in none of the packages with the given URIs. -/
def Metamodel.IsOutside (m : Metamodel) (uris : List String) (n : QualifiedName) : Prop :=
  ∀ uri ∈ uris, ∀ p, m.package? uri = some p → n.package ≠ p.name

namespace Derivation

variable {m : Metamodel} {uris : List String} {a b a' b' : TypeCatalog} {c : ClassifierRef}
  {n : QualifiedName} {t : NodeType} {ts : List NodeType} {done cs : List ClassifierRef}

theorem isOutside_typeName (hnames : (m.packages.values.map (·.name)).Nodup) (hc : c.uri ∉ uris)
    (hn : typeName m c = .ok n) : m.IsOutside uris n := by
  obtain ⟨p, hp, rfl⟩ := Metamodel.qualifiedName_ok (of_mapError_ok hn)
  intro uri huri q hq hname
  exact hc (Metamodel.uri_eq_of_name_eq hnames hp hq hname ▸ huri)

theorem uri_not_mem_of_isOutside (h : m.IsOutside uris n) (hn : typeName m c = .ok n) :
    c.uri ∉ uris := by
  obtain ⟨p, hp, rfl⟩ := Metamodel.qualifiedName_ok (of_mapError_ok hn)
  exact fun huri => h c.uri huri p hp rfl

/-- The catalogs hold the same types for the classes of all other packages and for those of the
packages that are done. -/
def Agrees (m : Metamodel) (uris : List String) (done : List ClassifierRef) (a b : TypeCatalog) :
    Prop :=
  ∀ c n, c.uri ∉ uris ∨ c ∈ done → typeName m c = .ok n → a.get? n = b.get? n

theorem Agrees.put (h : Agrees m uris done a b) (hc : typeName m c = .ok t.name) :
    Agrees m uris (c :: done) (a.put t) (b.put t) := by
  intro d n hd hn
  rw [TypeCatalog.get?_put, TypeCatalog.get?_put]
  split
  · rfl
  · rename_i hne
    refine h d n (hd.imp_right fun hmem => (List.mem_cons.1 hmem).resolve_left ?_) hn
    rintro rfl
    exact hne (Except.ok.inj (hc.symm.trans hn))

/-- A class whose supertypes in the packages are done is given the same type by both. -/
theorem Agrees.nodeTypeOf (h : Agrees m uris done a b)
    (hneeds : batchSupertypes m (m.classRefs uris) c ⊆ done)
    (ht : Derivation.nodeTypeOf m a c = .ok t) : Derivation.nodeTypeOf m b c = .ok t := by
  rw [nodeTypeOf_congr, ht]
  intro s hs _ n hn
  refine (h s n ?_ hn).symm
  by_cases hbatch : s ∈ m.classRefs uris
  · exact .inr (hneeds (List.mem_filter.2 ⟨hs, by simpa using hbatch⟩))
  · obtain ⟨-, fs, -, -, hfs, -⟩ := nodeTypeOf_ok ht
    have hclass := Metamodel.class?_of_supertype hfs hs
    exact .inl fun huri => hbatch (Metamodel.mem_classRefs.2 ⟨huri, hclass⟩)

theorem Agrees.mapM (h : Agrees m uris done a b)
    (hf : Follows (batchSupertypes m (m.classRefs uris)) done cs)
    (hrun : cs.mapM (deriveClass m) a = .ok ts a') :
    ∃ b', cs.mapM (deriveClass m) b = .ok ts b' ∧ Agrees m uris (cs.reverse ++ done) a' b' := by
  induction cs generalizing done a b ts with
  | nil =>
    cases hrun
    exact ⟨b, rfl, h⟩
  | cons c cs ih =>
    obtain ⟨t, _, ts, hc, hrest, rfl⟩ := StatefulRuns.of_mapM_cons_ok hrun
    obtain ⟨ht, hvalid, rfl⟩ := deriveClass_ok hc
    have hstep := deriveClass_eq (h.nodeTypeOf hf.1 ht) hvalid
    obtain ⟨b', hb', hagree⟩ := ih (h.put (nodeTypeOf_ok ht).1) hf.2 hrest
    refine ⟨b', StatefulRuns.mapM_cons_ok hstep hb', ?_⟩
    rwa [List.reverse_cons, List.append_assoc, List.singleton_append]

theorem Agrees.known (h : Agrees m uris [] a b) {s : ClassifierRef}
    (hclass : ∃ d, m.class? s = some d) (hs : Known m a (m.classRefs uris) s) :
    Known m b (m.classRefs uris) s := by
  by_cases hbatch : s ∈ m.classRefs uris
  · exact .inl hbatch
  · refine hs.imp_right (.imp_right ?_)
    rintro ⟨n, hn, hsome⟩
    have huri : s.uri ∉ uris := fun huri =>
      hbatch (Metamodel.mem_classRefs.2 ⟨huri, hclass⟩)
    exact ⟨n, hn, h s n (.inl huri) hn ▸ hsome⟩

theorem Agrees.supertypesFirst (h : Agrees m uris [] a b)
    (hnames : (m.packages.values.map (·.name)).Nodup)
    (hrun : derivePackages m uris a = .ok ts a') :
    supertypesFirst m (collected m uris b) (m.classRefs uris) =
      Derivation.supertypesFirst m (collected m uris a) (m.classRefs uris) := by
  obtain ⟨-, -, -, hall⟩ := exists_order_of_derivePackages hnames hrun
  have hclass : ∀ c ∈ m.classRefs uris, ∃ d, m.class? c = some d := fun c hc =>
    (Metamodel.mem_classRefs.1 hc).2
  have hcollected : ∀ {catalog : TypeCatalog} {s : ClassifierRef},
      Known m catalog (m.classRefs uris) s →
        Known m (collected m uris catalog) (m.classRefs uris) s := by
    intro catalog s
    simp [Known]
  rw [supertypesFirst_of_known hclass, supertypesFirst_of_known hclass]
  · exact fun c hc s hs => hcollected ((hall c hc).2 s hs)
  · exact fun c hc s hs =>
      hcollected (h.known ((hall c hc).1.class?_of_supertype hs) ((hall c hc).2 s hs))

theorem Agrees.derivePackages (h : Agrees m uris [] a b)
    (hnames : (m.packages.values.map (·.name)).Nodup)
    (hrun : Derivation.derivePackages m uris a = .ok ts a') :
    ∃ b', Derivation.derivePackages m uris b = .ok ts b' ∧
      ∀ c ∈ m.classRefs uris, ∀ n, typeName m c = .ok n → a'.get? n = b'.get? n := by
  obtain ⟨hloaded, order, horder, hderive⟩ := derivePackages_ok hrun
  obtain ⟨hf, hmem, -⟩ := supertypesFirst_ok horder
  have hstart : Agrees m uris [] (collected m uris a) (collected m uris b) := by
    intro c n hc hn
    simpa using h c n hc hn
  obtain ⟨b', hb', hagree⟩ := hstart.mapM hf hderive
  have horder' := (h.supertypesFirst hnames hrun).trans horder
  refine ⟨b', by rw [derivePackages_eq (collect_eq hloaded) horder', hb'], fun c hc n hn => ?_⟩
  exact hagree c n (.inr (by simpa using (hmem c).2 hc)) hn

theorem eq_of_mem_enumTypesIn (hnames : (m.packages.values.map (·.name)).Nodup)
    {e e' : EnumType} (he : e ∈ enumTypesIn m uris) (he' : e' ∈ enumTypesIn m uris)
    (hname : e.name = e'.name) : e = e' := by
  have hfrom : ∀ {e : EnumType}, e ∈ enumTypesIn m uris → ∃ uri p d, m.package? uri = some p ∧
      p.enum? d.name = some d ∧ e = ⟨⟨p.name, d.name⟩, d.literals⟩ := by
    intro e he
    obtain ⟨uri, -, he⟩ := List.mem_flatMap.1 he
    cases hp : m.package? uri with
    | none => simp [hp] at he
    | some p =>
      rw [hp] at he
      obtain ⟨d, hd, rfl⟩ := List.mem_map.1 he
      exact ⟨uri, p, d, hp, mem_enums.1 hd, rfl⟩
  obtain ⟨uri, p, d, hp, hd, rfl⟩ := hfrom he
  obtain ⟨uri', p', d', hp', hd', rfl⟩ := hfrom he'
  obtain ⟨hpackage, hd_name⟩ := QualifiedName.mk.inj hname
  cases Metamodel.uri_eq_of_name_eq hnames hp hp' hpackage
  cases hp.symm.trans hp'
  rw [hd_name, hd', Option.some.injEq] at hd
  rw [hd]

theorem enum?_collected_of_mem (hnames : (m.packages.values.map (·.name)).Nodup)
    {e : EnumType} (he : e ∈ enumTypesIn m uris) : (collected m uris a).enum? e.name = some e := by
  rw [collected, enum?_foldl_registerEnum, find?_eq_some_of_unique (List.mem_reverse.2 he)]
  · rfl
  · simp
  · intro e' he' hname
    exact eq_of_mem_enumTypesIn hnames (List.mem_reverse.1 he') he (by simpa using hname)

theorem enum?_derivePackages (hnames : (m.packages.values.map (·.name)).Nodup)
    (hrun : derivePackages m uris a = .ok ts a') {e : EnumType} (he : e ∈ enumTypesIn m uris) :
    a'.enum? e.name = some e := by
  obtain ⟨-, order, -, hderive⟩ := derivePackages_ok hrun
  rw [TypeCatalog.enum?, (unchanged_of_mapM hderive).1]
  exact enum?_collected_of_mem hnames he

theorem collected_eq_self (h : ∀ e ∈ enumTypesIn m uris, a.enum? e.name = some e) :
    collected m uris a = a := by
  rw [collected]
  generalize enumTypesIn m uris = es at h
  induction es with
  | nil => rfl
  | cons e es ih =>
    obtain ⟨he, hes⟩ := List.forall_mem_cons.1 h
    have hsame : a.registerEnum e = a := by
      rw [TypeCatalog.registerEnum, Table.insert_self he]
    rw [List.foldl_cons, hsame, ih hes]

theorem mapM_of_settled (hs : ∀ c ∈ cs, Settled m a c)
    (hrun : cs.mapM (deriveClass m) a = .ok ts a') :
    a' = a ∧ cs.mapM (nodeTypeOf m a) = .ok ts := by
  induction cs generalizing ts with
  | nil =>
    cases hrun
    exact ⟨rfl, rfl⟩
  | cons c cs ih =>
    obtain ⟨hc, hcs⟩ := List.forall_mem_cons.1 hs
    obtain ⟨t, _, ts, hstep, hrest, rfl⟩ := StatefulRuns.of_mapM_cons_ok hrun
    obtain ⟨ht, -, rfl⟩ := deriveClass_ok hstep
    obtain ⟨u, hu, hget⟩ := hc
    cases hu.symm.trans ht
    have hsame : a.put t = a := by rw [TypeCatalog.put, Table.insert_self hget]
    rw [hsame] at hrest
    obtain ⟨ha, hts⟩ := ih hcs hrest
    refine ⟨ha, ?_⟩
    rw [List.mapM_cons, ht, hts]
    rfl

/-- A second run gives the same types, all of which the catalog holds already, and leaves the
catalog as it is. -/
theorem derivePackages_again (hnames : (m.packages.values.map (·.name)).Nodup)
    (hrun : derivePackages m uris a = .ok ts a') :
    derivePackages m uris a' = .ok ts a' ∧
      ∀ c ∈ m.classRefs uris, ∃ t ∈ ts, typeName m c = .ok t.name ∧ a'.get? t.name = some t := by
  obtain ⟨-, -, -, hall⟩ := exists_order_of_derivePackages hnames hrun
  have hagree : Agrees m uris [] a a' := by
    intro c n hc hn
    have hout := isOutside_typeName hnames (by simpa using hc) hn
    refine (get?_derivePackages_of_ne hrun fun d hd hdn => ?_).symm
    exact uri_not_mem_of_isOutside hout hdn (Metamodel.mem_classRefs.1 hd).1
  obtain ⟨a'', hagain, -⟩ := hagree.derivePackages hnames hrun
  obtain ⟨-, order, horder, hderive⟩ := derivePackages_ok hagain
  rw [collected_eq_self fun e he => enum?_derivePackages hnames hrun he] at hderive
  have hmem := (supertypesFirst_ok horder).2.1
  obtain ⟨rfl, hts⟩ := mapM_of_settled (fun c hc => (hall c ((hmem c).1 hc)).1) hderive
  refine ⟨hagain, fun c hc => ?_⟩
  obtain ⟨t, ht, hget⟩ := (hall c hc).1
  obtain ⟨u, hu, hut⟩ := StatefulRuns.exists_mem_of_mapM_ok hts ((hmem c).2 hc)
  cases ht.symm.trans hut
  exact ⟨t, hu, (nodeTypeOf_ok ht).1, hget⟩

/-- What is derived from packages does not depend on what the catalog held for them before. -/
theorem derivePackages_independent
    (hnames : (m.packages.values.map (·.name)).Nodup)
    (hsame : ∀ n, m.IsOutside uris n → a.get? n = b.get? n) :
    (∀ ts, (∃ a', derivePackages m uris a = .ok ts a') ↔
      ∃ b', derivePackages m uris b = .ok ts b') ∧
    ∀ ts a' b', derivePackages m uris a = .ok ts a' → derivePackages m uris b = .ok ts b' →
      (∀ c ∈ m.classRefs uris, ∃ t ∈ ts, typeName m c = .ok t.name ∧ a'.get? t.name = some t ∧
        b'.get? t.name = some t) ∧
      (∀ e ∈ enumTypesIn m uris, a'.enum? e.name = some e ∧ b'.enum? e.name = some e) ∧
      derivePackages m uris a' = .ok ts a' := by
  have hagree : Agrees m uris [] a b := fun c n hc hn =>
    hsame n (isOutside_typeName hnames (by simpa using hc) hn)
  have hagree' : Agrees m uris [] b a := fun c n hc hn => (hagree c n hc hn).symm
  refine ⟨fun ts => ⟨?_, ?_⟩, ?_⟩
  · rintro ⟨a', ha⟩
    obtain ⟨b', hb, -⟩ := hagree.derivePackages hnames ha
    exact ⟨b', hb⟩
  · rintro ⟨b', hb⟩
    obtain ⟨a', ha, -⟩ := hagree'.derivePackages hnames hb
    exact ⟨a', ha⟩
  · intro ts a' b' ha hb
    obtain ⟨hagain, hheld⟩ := derivePackages_again hnames ha
    obtain ⟨b'', hb', htypes⟩ := hagree.derivePackages hnames ha
    cases hb.symm.trans hb'
    refine ⟨fun c hc => ?_, fun e he => ?_, hagain⟩
    · obtain ⟨t, ht, hn, hget⟩ := hheld c hc
      exact ⟨t, ht, hn, hget, by rw [← htypes c hc t.name hn, hget]⟩
    · exact ⟨enum?_derivePackages hnames ha he, enum?_derivePackages hnames hb he⟩

/-- A catalog in which a plant has a property that no class asks for. -/
def stalePlants : TypeCatalog :=
  TypeCatalog.initial.put { NodeType.ofName ⟨"plants", "Plant"⟩ with
    properties := [⟨"age", .value, .data .integer, false, none⟩] }

theorem derivePackages_stalePlants : ∃ ts a b,
    derivePackages plants ["urn:plants"] .initial = .ok ts a ∧
      derivePackages plants ["urn:plants"] stalePlants = .ok ts b ∧
      (∃ t ∈ ts, t.name = ⟨"plants", "Tree"⟩ ∧ a.get? t.name = some t ∧ b.get? t.name = some t) ∧
      b.enum? ⟨"plants", "Season"⟩ = some ⟨⟨"plants", "Season"⟩, ["dry", "wet"]⟩ := by
  have hsame : ∀ n, plants.IsOutside ["urn:plants"] n →
      TypeCatalog.initial.get? n = stalePlants.get? n := by
    intro n hn
    rw [stalePlants, TypeCatalog.get?_put, if_neg]
    rintro rfl
    exact hn "urn:plants" (by simp) plantsPackage rfl rfl
  obtain ⟨hiff, hresults⟩ :=
    derivePackages_independent (by decide +kernel) hsame
  have hruns : (match derivePackages plants ["urn:plants"] .initial with
      | .ok _ _ => true | .error _ _ => false) = true := by decide +kernel
  split at hruns
  · rename_i ts a ha
    obtain ⟨b, hb⟩ := (hiff ts).1 ⟨a, ha⟩
    obtain ⟨htypes, henums, -⟩ := hresults ts a b ha hb
    refine ⟨ts, a, b, ha, hb, ?_, ?_⟩
    · obtain ⟨t, ht, hn, hget⟩ := htypes ⟨"urn:plants", "Tree"⟩ (by decide +kernel)
      exact ⟨t, ht, (Except.ok.inj hn).symm, hget⟩
    · exact (henums ⟨⟨"plants", "Season"⟩, ["dry", "wet"]⟩ (by decide +kernel)).2
  · cases hruns

end Derivation

end TreeInterchange
