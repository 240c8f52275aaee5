import TreeInterchange.Metamodel.Basic
import TreeInterchange.Proofs.OrderedTables

/-!
# Classifiers of a package

A package that is filled by adding classifiers stores each under its own name, in the order
in which the names first came, and the last classifier of a name stands for it. Such a
package is determined by its name, its URI, its short name and the list of its classifiers.
-/

namespace TreeInterchange

attribute [ext] Table Package

namespace Package

variable {p : Package}

@[simp] theorem name_addAll (p : Package) (cs : List Classifier) : (p.addAll cs).name = p.name := by
  induction cs generalizing p with
  | nil => rfl
  | cons d cs ih => exact ih (p.add d)

@[simp] theorem uri_addAll (p : Package) (cs : List Classifier) : (p.addAll cs).uri = p.uri := by
  induction cs generalizing p with
  | nil => rfl
  | cons d cs ih => exact ih (p.add d)

@[simp] theorem shortName_addAll (p : Package) (cs : List Classifier) :
    (p.addAll cs).shortName = p.shortName := by
  induction cs generalizing p with
  | nil => rfl
  | cons d cs ih => exact ih (p.add d)

theorem classifiers_addAll (p : Package) (cs : List Classifier) :
    (p.addAll cs).classifiers =
      (cs.map fun c => (c.name, c)).foldl (fun t e => t.insert e.1 e.2) p.classifiers := by
  induction cs generalizing p with
  | nil => rfl
  | cons c cs ih => exact ih (p.add c)

theorem get?_addAll (p : Package) (cs : List Classifier) (name : String) :
    (p.addAll cs).classifiers.get? name =
      (cs.reverse.find? (·.name = name)).or (p.classifiers.get? name) := by
  induction cs generalizing p with
  | nil => rfl
  | cons d cs ih =>
    have hstep : (p.addAll (d :: cs)).classifiers.get? name =
        ((p.add d).addAll cs).classifiers.get? name := rfl
    rw [hstep, ih, List.reverse_cons, List.find?_append, Option.or_assoc]
    congr 1
    rw [add, Table.get?_insert]
    by_cases hd : d.name = name <;> simp [hd]

theorem name_eq {name : String} {c : Classifier} (hc : p.classifiers.get? name = some c) :
    c.name = name :=
  p.keyed.key_eq hc

theorem entries_eq (p : Package) :
    (p.classifiers.values.map fun c => (c.name, c)) = p.classifiers.entries := by
  rw [Table.values, List.map_map]
  conv_rhs => rw [← List.map_id p.classifiers.entries]
  exact List.map_congr_left fun e he => by simp [← p.keyed e he]

/-- Adding the classifiers of a package to an empty one gives the package back. -/
theorem addAll_values (p : Package) :
    { Package.ofName p.name p.uri with shortName := p.shortName }.addAll p.classifiers.values =
      p := by
  refine Package.ext (by simp [ofName]) (by simp [ofName]) (by simp) (Table.ext ?_)
  rw [classifiers_addAll, entries_eq]
  exact Table.entries_ofList p.classifiers.nodup

end Package

namespace Metamodel

variable {m : Metamodel} {p : Package} {uri : String}

theorem uri_eq (hp : m.package? uri = some p) : p.uri = uri := m.keyed.key_eq hp

theorem uri_eq_of_name_eq (hn : (m.packages.values.map (·.name)).Nodup) {uri' : String}
    {p' : Package} (hp : m.package? uri = some p) (hp' : m.package? uri' = some p')
    (he : p.name = p'.name) : uri = uri' := by
  have hentries : (m.packages.entries.map fun e => e.2.name).Nodup := by
    simpa [Table.values, Function.comp_def] using hn
  have heq := List.inj_on_of_nodup_map hentries (Table.get?_eq_some_iff.1 hp)
    (Table.get?_eq_some_iff.1 hp') he
  exact congrArg Prod.fst heq

end Metamodel

end TreeInterchange
