import MovePlan.Proofs.Types.Grown
import MovePlan.Proofs.Types.Inside
import MovePlan.Proofs.Types.Links

set_option autoImplicit false

namespace MovePlan

namespace PathTypes

/-- A path goes on from the end of another one. -/
def extend (p : PathTypes) (r : List TypeId × Bool) : PathTypes :=
  { p with steps := p.steps ++ r.1, throughPointer := p.throughPointer || r.2 }

theorem extend_nil (p : PathTypes) : p.extend ([], false) = p := by simp [extend]

theorem extend_extend (p : PathTypes) (r s : List TypeId × Bool) :
    (p.extend r).extend s = p.extend (r.1 ++ s.1, r.2 || s.2) := by
  simp [extend, Bool.or_assoc]

theorem leaf_extend (p : PathTypes) (x : TypeId) (through : Bool) :
    (p.extend ([x], through)).leaf = x := by simp [extend, leaf]

end PathTypes

namespace TypeTable
variable {t : TypeTable}

/-- Pointers and references are followed until there are none. -/
inductive Follows (t : TypeTable) : TypeId → TypeDef → Bool → Prop
  | here {id : TypeId} {d : TypeDef} : t.get? id = some d → d.kind ≠ .pointer → d.kind ≠ .reference →
      Follows t id d false
  | on {id inner : TypeId} {d last : TypeDef} {through : Bool} : t.get? id = some d →
      d.kind = .pointer ∨ d.kind = .reference → d.target = some inner → Follows t inner last through →
      Follows t id last true

theorem isNominal_eq_false {d : TypeDef} :
    d.kind.isNominal = false ↔ d.kind = .pointer ∨ d.kind = .reference := by
  cases hk : d.kind <;> simp [TypeKind.isNominal]

theorem Built.target_lt (ht : t.Built) {id : Int} {d : TypeDef} (hd : t.get? id = some d)
    (hk : d.kind = .pointer ∨ d.kind = .reference) :
    ∃ inner : Int, d.target = some inner ∧ t.contains inner = true ∧ inner < id := by
  have hmem : d ∈ t.defs := mem_defs_of_get (get_eq_ok.2 hd)
  obtain ⟨inner, hinner⟩ := Option.isSome_iff_exists.1 (ht.pointersLead d hmem (isNominal_eq_false.2 hk))
  obtain ⟨hpos, hle⟩ := contains_iff.1 (contains_of_get (get_eq_ok.2 hd))
  rw [get?, if_pos hpos] at hd
  obtain ⟨hfirst, hearlier⟩ := ht.targetsEarlier hd hinner
  exact ⟨inner, hinner, contains_iff.2 ⟨hfirst, by omega⟩, by omega⟩

theorem Built.contains_target (ht : t.Built) {d : TypeDef} (hd : d ∈ t.defs) {inner : Int}
    (hinner : d.target = some inner) : t.contains inner = true := by
  obtain ⟨i, hi, rfl⟩ := List.mem_iff_getElem.1 hd
  obtain ⟨hfirst, hearlier⟩ := ht.targetsEarlier (List.getElem?_eq_getElem hi) hinner
  refine contains_iff.2 ⟨hfirst, ?_⟩
  rw [size]
  omega

theorem Built.follows_pointee (ht : t.Built) {depth : ℕ} {id : Int} (hid : t.contains id = true)
    (hdepth : id ≤ (depth : Int)) : ∃ d through, t.pointee depth id = .ok (d, through) ∧
      t.Follows id d through := by
  induction depth generalizing id with
  | zero =>
    have := (contains_iff.1 hid).1
    omega
  | succ depth ih =>
    obtain ⟨d, hd⟩ := Option.isSome_iff_exists.1 hid
    by_cases hk : d.kind = .pointer ∨ d.kind = .reference
    · obtain ⟨inner, hinner, hcontains, hlt⟩ := ht.target_lt hd hk
      obtain ⟨last, through, hlast, hfollows⟩ := ih hcontains (by omega)
      refine ⟨last, true, bind_eq_ok.2 ⟨d, get_eq_ok.2 hd, ?_⟩, .on hd hk hinner hfollows⟩
      rcases hk with hp | hr
      · simp only [hp, hinner, hlast, bind, Except.bind, pure, Except.pure]
      · simp only [hr, hinner, hlast, bind, Except.bind, pure, Except.pure]
    · rw [not_or] at hk
      refine ⟨d, false, bind_eq_ok.2 ⟨d, get_eq_ok.2 hd, ?_⟩, .here hd hk.1 hk.2⟩
      split
      next hp _ => exact absurd hp hk.1
      next hr _ => exact absurd hr hk.2
      next => rfl

theorem Follows.mem_defs {id : TypeId} {d : TypeDef} {through : Bool} (h : t.Follows id d through) :
    d ∈ t.defs := by
  induction h with
  | here hd => exact mem_defs_of_get (get_eq_ok.2 hd)
  | on _ _ _ _ ih => exact ih

/-- The fields of a path are looked up one after the other, each behind the pointers to its struct. The
path ends at the last type, or with the first field that is missing. -/
inductive Ends (t : TypeTable) : PathTypes → List String → Except TypeError PathTypes → Prop
  | done {p : PathTypes} : Ends t p [] (.ok p)
  | missing {p : PathTypes} {d : TypeDef} {through : Bool} {field : String} {path : List String} :
      t.Follows p.leaf d through → d.fieldNamed? field = none →
      Ends t p (field :: path) (.error (.noField d.name field))
  | next {p : PathTypes} {d : TypeDef} {through : Bool} {field : String} {path : List String} {x : Field}
      {out : Except TypeError PathTypes} : t.Follows p.leaf d through → d.fieldNamed? field = some x →
      Ends t (p.extend ([x.type], through)) path out → Ends t p (field :: path) out

theorem step_of_pointee {id : TypeId} {d : TypeDef} {through : Bool}
    (h : t.pointee (t.size + 1) id = .ok (d, through)) (field : String) : t.step id field =
      match d.fieldNamed? field with
      | some x => .ok (x.type, through)
      | none => .error (.noField d.name field) := by
  rw [step, h]
  rfl

theorem extend_walk {p : PathTypes} {field : String} {next : TypeId} {through : Bool}
    (h : t.step p.leaf field = .ok (next, through)) (path : List String) :
    (t.walk p.leaf (field :: path)).map p.extend =
      (t.walk next path).map (p.extend ([next], through)).extend := by
  rw [walk, h]
  cases hrest : t.walk next path with
  | error e => simp only [bind, Except.bind, hrest, Except.map]
  | ok r => simp only [bind, Except.bind, hrest, pure, Except.pure, Except.map, PathTypes.extend_extend,
      List.singleton_append]

theorem Built.ends_walk (ht : t.Built) (path : List String) {p : PathTypes}
    (hp : t.contains p.leaf = true) : t.Ends p path ((t.walk p.leaf path).map p.extend) := by
  induction path generalizing p with
  | nil =>
    rw [walk, Except.map, PathTypes.extend_nil]
    exact .done
  | cons field path ih =>
    have hdepth : p.leaf ≤ ((t.size + 1 : ℕ) : Int) := Int.le_trans (contains_iff.1 hp).2 (by omega)
    obtain ⟨d, through, hpointee, hfollows⟩ := ht.follows_pointee hp hdepth
    have hstep := step_of_pointee hpointee field
    cases hx : d.fieldNamed? field with
    | none =>
      rw [hx] at hstep
      rw [walk, hstep]
      exact .missing hfollows hx
    | some x =>
      rw [hx] at hstep
      have hleaf : (p.extend ([x.type], through)).leaf = x.type := PathTypes.leaf_extend ..
      have hnext : t.contains x.type = true :=
        ht.fieldsRegistered d hfollows.mem_defs x (List.mem_of_find?_eq_some hx)
      have hends := ih (hleaf.symm ▸ hnext)
      rw [hleaf] at hends
      rw [extend_walk hstep]
      exact .next hfollows hx hends

theorem walk_append (id : TypeId) (p q : List String) : t.walk id (p ++ q) = do
    let (a, through) ← t.walk id p
    let (b, later) ← t.walk (a.getLast?.getD id) q
    return (a ++ b, through || later) := by
  induction p generalizing id with
  | nil =>
    rw [List.nil_append]
    cases hq : t.walk id q with
    | error e => simp [walk, hq, bind, Except.bind]
    | ok r => simp [walk, hq, bind, Except.bind, pure, Except.pure]
  | cons field p ih =>
    rw [List.cons_append, walk, walk]
    cases hstep : t.step id field with
    | error e => rfl
    | ok next =>
      simp only [bind, Except.bind, ih]
      cases hp : t.walk next.1 p with
      | error e => rfl
      | ok a =>
        simp only [pure, Except.pure]
        rw [List.getLast?_cons, Option.getD_some]
        cases hq : t.walk (a.1.getLast?.getD next.1) q with
        | error e => rfl
        | ok b => simp only [List.cons_append, Bool.or_assoc]

end TypeTable

namespace TypeModel
open TypeTable
variable {m : TypeModel} {id : TypeId}

theorem resolvePath_eq (path : List String) :
    m.resolvePath id path = (m.table.walk id path).map (PathTypes.extend { root := id }) := by
  rw [resolvePath]
  cases m.table.walk id path with
  | error e => rfl
  | ok r => simp [bind, Except.bind, pure, Except.pure, Except.map, PathTypes.extend]

theorem resolvePath_eq_ok {path : List String} {r : PathTypes} : m.resolvePath id path = .ok r ↔
    r.root = id ∧ m.table.walk id path = .ok (r.steps, r.throughPointer) := by
  rw [resolvePath, bind_eq_ok]
  constructor
  · rintro ⟨⟨steps, through⟩, hwalk, hr⟩
    obtain rfl := pure_eq_ok.1 hr
    exact ⟨rfl, hwalk⟩
  · rintro ⟨rfl, hwalk⟩
    exact ⟨_, hwalk, rfl⟩

/-- Two paths one after the other are resolved just if the second one is from the end of the first. -/
theorem resolvePath_append {p q : List String} {r : PathTypes} : m.resolvePath id (p ++ q) = .ok r ↔
    ∃ a b, m.resolvePath id p = .ok a ∧ m.resolvePath a.leaf q = .ok b ∧
      r.chain = a.chain ++ b.chain.tail ∧ r.throughPointer = (a.throughPointer || b.throughPointer) := by
  simp only [resolvePath_eq_ok, walk_append, bind_eq_ok, pure_eq_ok, Prod.mk.injEq, PathTypes.chain,
    List.tail_cons, List.cons_append, List.cons.injEq]
  constructor
  · rintro ⟨rfl, ⟨steps, through⟩, hp, ⟨rest, later⟩, hq, hsteps, hthrough⟩
    exact ⟨⟨r.root, steps, through⟩, ⟨_, rest, later⟩, ⟨rfl, hp⟩, ⟨rfl, hq⟩, ⟨rfl, hsteps.symm⟩,
      hthrough.symm⟩
  · rintro ⟨a, b, ⟨rfl, hp⟩, ⟨-, hq⟩, ⟨hroot, hsteps⟩, hthrough⟩
    exact ⟨hroot, _, hp, _, hq, hsteps.symm, hthrough.symm⟩

/-- Whatever calls build a table: its pointers lead to earlier types and its ids are registered, equal
ids are answered for equal links only, and paths come to their end and compose. -/
theorem resolvePath_exact (calls : List TableCall) :
    let t := (TableCall.runAll {} calls).1
    let answers := (TableCall.runAll {} calls).2
    (∀ (id : Int) (d : TypeDef), t.get? id = some d → d.kind = .pointer ∨ d.kind = .reference →
      ∃ inner : Int, d.target = some inner ∧ inner < id) ∧
    (∀ d ∈ t.defs, (∀ x ∈ d.fields, t.contains x.type = true) ∧
      ∀ inner, d.target = some inner → t.contains inner = true) ∧
    (∀ l : Link, t.contains l.inner = true → ∃ id, (l.call.run t).2 = .ok (some id)) ∧
    (∀ (l k : Link) (a b : TypeId), (l.call, .ok (some a)) ∈ answers →
      (k.call, .ok (some b)) ∈ answers → (a = b ↔ l = k)) ∧
    (∀ id path, t.contains id = true → t.Ends { root := id } path ((build t).resolvePath id path)) ∧
    ∀ id p q r, (build t).resolvePath id (p ++ q) = .ok r ↔
      ∃ a b, (build t).resolvePath id p = .ok a ∧ (build t).resolvePath a.leaf q = .ok b ∧
        r.chain = a.chain ++ b.chain.tail ∧ r.throughPointer = (a.throughPointer || b.throughPointer) := by
  intro t answers
  have ht : t.Built := (TableCall.keeps_runAll calls).built .empty
  refine ⟨fun id d hd hk => ?_, fun d hd => ⟨ht.fieldsRegistered d hd, fun inner hinner => ?_⟩,
    fun l => TableCall.exists_run, fun l k a b => TableCall.answered_iff, fun id path hid => ?_,
    fun id p q r => resolvePath_append⟩
  · obtain ⟨inner, hinner, -, hlt⟩ := ht.target_lt hd hk
    exact ⟨inner, hinner, hlt⟩
  · exact ht.contains_target hd hinner
  · rw [resolvePath_eq]
    exact ht.ends_walk path (p := { root := id }) hid

/-- A list cell that is declared, pointed to and then defined leads back to itself. -/
example : (build (TableCall.runAll {} [.declareStruct "Cell" {}, .newPointer 1,
      .defineStruct 1 [⟨"next", 2⟩], .newPointer 1]).1).resolvePath 1 ["next", "next"] =
    .ok { root := 1, steps := [2, 2], throughPointer := true } := by
  rfl

end TypeModel
end MovePlan
