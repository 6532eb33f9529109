import MovePlan.Proofs.Text.Demands.Basic

set_option autoImplicit false

namespace MovePlan.Text

/-- The names of the table, once all nominal types of a text are registered. Only `Unknown` may come
later, and only if its name is free. -/
structure Ready (ns : Names) (t : TypeTable) : Prop where
  known : ∀ n ∈ ns.known, n ∈ t.names
  fresh : ∀ n ∈ t.names, n ∉ ns.known → ns.clash = false
  taken : ns.clash = true → t.unknownType = none ∧ "Unknown" ∈ t.names
  free : ns.clash = false → t.unknownType = none → "Unknown" ∉ t.names
  unknown : ∀ {id : TypeId}, t.unknownType = some id → t.contains id = true

theorem Ready.shares {ns : Names} {t t' : TypeTable} (h : Ready ns t) (ht : t.Shares t') :
    Ready ns t' where
  known := by
    rw [ht.names]
    exact h.known
  fresh := by
    rw [ht.names]
    exact h.fresh
  taken := by
    rw [ht.names, ht.unknownType]
    exact h.taken
  free := by
    rw [ht.names, ht.unknownType]
    exact h.free
  unknown hid := ht.later.contains (h.unknown (ht.unknownType ▸ hid))

/-- The step fails at the first demand that is refused. If none is, it answers. -/
def Meets {α : Type} (ns : Names) (ds : List Demand) (op : Assemble α) (b : Assembly)
    (good : α → TypeTable → Prop) : Prop :=
  match ns.firstFault ds with
  | some e => op b = .error e
  | none => ∃ a b', op b = .ok (a, b') ∧ Ready ns b'.table ∧ b.table.Later b'.table ∧ good a b'.table

namespace Meets
variable {α β : Type} {ns : Names} {ds ds' : List Demand} {op : Assemble α} {b : Assembly}
  {good : α → TypeTable → Prop} {good' : β → TypeTable → Prop}

theorem bind {next : α → Assemble β} (h : Meets ns ds op b good)
    (hnext : ∀ a b', Ready ns b'.table → b.table.Later b'.table → good a b'.table →
      Meets ns ds' (next a) b' good') : Meets ns (ds ++ ds') (op >>= next) b good' := by
  have hbind : (op >>= next) b = op b >>= fun p => next p.1 p.2 := rfl
  rw [Meets] at h ⊢
  rw [Names.firstFault_append, hbind]
  cases hds : ns.firstFault ds with
  | some e =>
    rw [hds] at h
    rw [Option.some_or]
    simp only [h]
    rfl
  | none =>
    rw [hds] at h
    obtain ⟨a, b', hop, hready, hlater, hgood⟩ := h
    have hafter := hnext a b' hready hlater hgood
    rw [Meets] at hafter
    rw [Option.none_or]
    simp only [hop]
    cases hds' : ns.firstFault ds' with
    | some e =>
      rw [hds'] at hafter
      exact hafter
    | none =>
      rw [hds'] at hafter
      obtain ⟨c, b'', hrun, hready', hlater', hgood'⟩ := hafter
      exact ⟨c, b'', hrun, hready', hlater.trans hlater', hgood'⟩

theorem of_ok {a : α} {b' : Assembly} (hop : op b = .ok (a, b')) (hready : Ready ns b'.table)
    (hlater : b.table.Later b'.table) (hgood : good a b'.table) : Meets ns [] op b good :=
  ⟨a, b', hop, hready, hlater, hgood⟩

theorem of_same {a : α} {b' : Assembly} (hop : op b = .ok (a, b')) (htable : b'.table = b.table)
    (hready : Ready ns b.table) (hgood : good a b.table) : Meets ns [] op b good := by
  rw [← htable] at hready hgood
  refine of_ok hop hready ?_ hgood
  rw [htable]
  exact .refl _

theorem imp (h : Meets ns ds op b good) {good' : α → TypeTable → Prop}
    (himp : ∀ a t, b.table.Later t → good a t → good' a t) : Meets ns ds op b good' := by
  rw [Meets] at h ⊢
  cases hds : ns.firstFault ds with
  | some e => rwa [hds] at h
  | none =>
    rw [hds] at h
    obtain ⟨a, b', hop, hready, hlater, hgood⟩ := h
    exact ⟨a, b', hop, hready, hlater, himp a b'.table hlater hgood⟩

theorem pure {a : α} (hready : Ready ns b.table) (hgood : good a b.table) :
    Meets ns [] (pure a) b good :=
  of_same (show (Pure.pure a : Assemble α) b = .ok (a, b) from rfl) rfl hready hgood

theorem report {code message : String} {span : Span} (hready : Ready ns b.table) :
    Meets ns [] (report code message span) b fun _ _ => True :=
  of_same rfl rfl hready trivial

theorem reportAs {phase code message : String} {span : Span} (hready : Ready ns b.table) :
    Meets ns [] (reportAs phase code message span) b fun _ _ => True :=
  of_same rfl rfl hready trivial

theorem spanInFile {span : Span} (hready : Ready ns b.table) :
    Meets ns [] (spanInFile span) b fun _ _ => True :=
  of_same rfl rfl hready trivial

theorem after {good₀ : α → TypeTable → Prop} {next : α → Assemble β} (h : Meets ns [] op b good₀)
    (hnext : ∀ a b', Ready ns b'.table → b.table.Later b'.table → good₀ a b'.table →
      Meets ns ds (next a) b' good') : Meets ns ds (op >>= next) b good' :=
  h.bind hnext

theorem before {good₀ : α → TypeTable → Prop} {next : α → Assemble β} (h : Meets ns ds op b good₀)
    (hnext : ∀ a b', Ready ns b'.table → b.table.Later b'.table → good₀ a b'.table →
      Meets ns [] (next a) b' good') : Meets ns ds (op >>= next) b good' := by
  rw [← List.append_nil ds]
  exact h.bind hnext

theorem valueOf {n : Numeral} (hready : Ready ns b.table) :
    Meets ns [.number n] (valueOf n) b fun v _ => v = n.value := by
  rw [Meets, Names.firstFault_singleton, Names.fault?]
  have hrun : Text.valueOf n b =
      (optionOr (.longNumeral n.length) n.value? >>= fun v => .ok ((v : Int), b)) := rfl
  rw [hrun, Numeral.value?]
  cases n.isTooLong with
  | true => rfl
  | false => exact ⟨_, b, rfl, hready, .refl _, rfl⟩

theorem numbers {ns : Names} (ns' : List Numeral) {b : Assembly} (hready : Ready ns b.table) :
    Meets ns (ns'.map .number) (ns'.mapM Text.valueOf) b fun _ _ => True := by
  induction ns' generalizing b with
  | nil => exact pure hready trivial
  | cons n rest ih =>
    rw [List.mapM_cons, List.map_cons, ← List.singleton_append]
    refine (valueOf hready).bind fun v b' hready' _ _ => ?_
    exact (ih hready').before fun vs b'' hready'' _ _ => pure hready'' trivial

theorem onTable {o : TypeTable → Except TypeError (TypeTable × α)} {t' : TypeTable} {a : α}
    (ho : o b.table = .ok (t', a)) (hready : Ready ns t') (hlater : b.table.Later t')
    (hgood : good a t') : Meets ns [] (onTable o) b good := by
  have hrun : Text.onTable o b =
      (liftType (o b.table) >>= fun p => .ok (p.2, { b with table := p.1 })) := rfl
  have hop : Text.onTable o b = .ok (a, { b with table := t' }) := by
    rw [hrun, ho]
    rfl
  exact of_ok hop hready hlater hgood

/-- The type `Unknown` is refused just where its name is taken. -/
theorem unknown (hready : Ready ns b.table) :
    Meets ns [.unknown] (Text.onTable TypeTable.ensureUnknown) b fun id t => t.contains id = true := by
  rw [Meets, Names.firstFault_singleton, Names.fault?]
  have hrun : Text.onTable TypeTable.ensureUnknown b =
      (liftType b.table.ensureUnknown >>= fun p => .ok (p.2, { b with table := p.1 })) := rfl
  rw [hrun]
  cases hclash : ns.clash with
  | true =>
    obtain ⟨hnone, hname⟩ := hready.taken hclash
    have hregister := TypeTable.register_eq_error (d := { kind := .unknown, name := "Unknown" }) hname
    simp only [TypeTable.ensureUnknown, hnone, hregister]
    rfl
  | false =>
    cases hold : b.table.unknownType with
    | some id =>
      refine ⟨id, b, ?_, hready, .refl _, hready.unknown hold⟩
      simp only [TypeTable.ensureUnknown, hold]
      rfl
    | none =>
      have hfree := hready.free hclash hold
      have hregister := TypeTable.register_eq_ok (d := { kind := .unknown, name := "Unknown" }) hfree
      have hlater := TypeTable.Later.append (t := b.table) { kind := .unknown, name := "Unknown" }
      refine ⟨(b.table.append { kind := .unknown, name := "Unknown" }).2, { b with table :=
        { (b.table.append { kind := .unknown, name := "Unknown" }).1 with
          unknownType := some (b.table.append { kind := .unknown, name := "Unknown" }).2 } },
        ?_, ?_, hlater, TypeTable.contains_append _⟩
      · simp only [TypeTable.ensureUnknown, hold, hregister]
        rfl
      · exact
          { known := fun n hn => hlater.mem_names (hready.known n hn)
            fresh := fun _ _ _ => hclash
            taken := fun h => by rw [hclash] at h; cases h
            free := fun _ h => by cases h
            unknown := fun hid => by
              rw [← Option.some.inj hid]
              exact TypeTable.contains_append _ }

end Meets

end MovePlan.Text
