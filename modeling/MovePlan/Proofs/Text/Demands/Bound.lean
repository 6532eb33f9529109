import MovePlan.Proofs.Text.Demands.Types

set_option autoImplicit false

namespace MovePlan.Text
variable {ns : Names} {b : Assembly}

/-- Which names are bound in a function, those of captures and parameters apart from the locals. -/
def Bound (f : Function) (bound locals : List String) : Prop :=
  ∀ n, (f.binding? n).map (fun x => x.isParam || x.captured) =
    if n ∈ bound then some true else if n ∈ locals then some false else none

namespace Bound
variable {f g : Function} {bound bound' locals locals' : List String}

theorem isSome_iff (h : Bound f bound locals) {n : String} :
    (f.binding? n).isSome = true ↔ n ∈ bound ++ locals := by
  have hn := congrArg Option.isSome (h n)
  rw [Option.isSome_map] at hn
  rw [hn, List.mem_append]
  split
  next h => simp [h]
  next h => split <;> simp_all

theorem congr (h : Bound f bound locals) (hbindings : g.bindings = f.bindings)
    (hbound : ∀ n, n ∈ bound' ↔ n ∈ bound)
    (hlocals : ∀ n, n ∉ bound → (n ∈ locals' ↔ n ∈ locals)) : Bound g bound' locals' := by
  intro n
  rw [Function.binding?, hbindings]
  refine (h n).trans ?_
  simp only [hbound]
  split
  · rfl
  next hn => simp only [hlocals n hn]

theorem same (h : Bound f bound locals) (hbindings : g.bindings = f.bindings) : Bound g bound locals :=
  h.congr hbindings (fun _ => Iff.rfl) fun _ _ => Iff.rfl

theorem binding?_put {name : String} {x : Binding} (hg : g.bindings = f.bindings.put name x) (n : String) :
    g.binding? n = if n = name then some x else f.binding? n := by
  rw [Function.binding?, hg]
  exact OrderedMap.get?_put _ _ _ _

theorem put_local (h : Bound f bound locals) {name : String} {x : Binding}
    (hfresh : f.binding? name = none) (hx : (x.isParam || x.captured) = false)
    (hg : g.bindings = f.bindings.put name x) : Bound g bound (locals ++ [name]) := by
  have hnew : name ∉ bound ++ locals := fun hmem => by
    rw [← h.isSome_iff, hfresh] at hmem
    cases hmem
  rw [List.mem_append, not_or] at hnew
  intro n
  rw [binding?_put hg]
  by_cases hn : n = name
  · subst hn
    simp [hx, hnew.1]
  · simpa [hn] using h n

theorem replace (h : Bound f bound locals) {name : String} {x y : Binding}
    (hx : f.binding? name = some x) (hy : (y.isParam || y.captured) = (x.isParam || x.captured))
    (hg : g.bindings = f.bindings.put name y) : Bound g bound locals := by
  intro n
  rw [← h n, binding?_put hg]
  by_cases hn : n = name
  · subst hn
    rw [if_pos rfl, hx, Option.map_some, Option.map_some, hy]
  · rw [if_neg hn]

end Bound

structure Opened (f : Function) (bound : List String) : Prop where
  bound : Bound f bound []
  blocks : f.blocks = .empty

theorem Opened.put {f g : Function} {bound : List String} (h : Opened f bound) {name : String}
    {x : Binding} (hx : (x.isParam || x.captured) = true) (hg : g.bindings = f.bindings.put name x)
    (hblocks : g.blocks = f.blocks) : Opened g (bound ++ [name]) := by
  refine ⟨fun n => ?_, hblocks.trans h.blocks⟩
  rw [Bound.binding?_put hg]
  by_cases hn : n = name
  · simp [hn, hx]
  · simpa [hn] using h.bound n

theorem meets_buildCaptures {parent : Option Function} {outer : List String} (span : Span)
    (names : List String) {f : Function} {bound : List String} (hready : Ready ns b.table)
    (hparent : ∀ n, (parent.bind fun p => p.binding? n).isSome = true ↔ n ∈ outer)
    (hf : Opened f bound) :
    Meets ns ((names.filter (· ∉ outer)).map fun _ => .unknown) (buildCaptures parent span names f) b
      fun g _ => Opened g (bound ++ names) := by
  induction names generalizing f bound b with
  | nil => exact .pure hready (by rwa [List.append_nil])
  | cons name rest ih =>
    have hrest : ∀ (b' : Assembly) (type : TypeId), Ready ns b'.table →
        Meets ns ((rest.filter (· ∉ outer)).map fun _ => .unknown)
          (buildCaptures parent span rest
            { f with bindings := f.bindings.put name { name := name, type := type, captured := true } }) b'
          fun g _ => Opened g (bound ++ name :: rest) := by
      intro b' type h
      have hput : Opened { f with bindings := f.bindings.put name { name := name, type := type, captured := true } }
          (bound ++ [name]) := hf.put rfl rfl rfl
      refine (ih h hput).imp fun g _ _ hg => ?_
      rwa [List.append_assoc] at hg
    rw [buildCaptures]
    cases hname : parent.bind fun p => p.binding? name with
    | some x =>
      have hmem : name ∈ outer := (hparent name).1 (by rw [hname]; rfl)
      rw [List.filter_cons_of_neg (by simpa using hmem)]
      exact hrest b x.type hready
    | none =>
      have hmem : name ∉ outer := fun h => by
        rw [← hparent, hname] at h
        cases h
      rw [List.filter_cons_of_pos (by simpa using hmem), List.map_cons, ← List.singleton_append]
      refine (Meets.report hready).after fun _ _ h _ _ => ?_
      exact (Meets.unknown h).bind fun type b' h' _ _ => hrest b' type h'

theorem meets_buildParam (index : ℕ) (p : Parameter) {f : Function} {bound : List String}
    (hready : Ready ns b.table) (hf : Opened f bound) :
    Meets ns p.type.demands (buildParam index p f) b fun g _ => Opened g (bound ++ [p.name.text]) := by
  refine (meets_resolveType p.type hready).before fun type b' hready' _ _ => ?_
  dsimp only
  split
  next hold =>
    rw [OrderedMap.contains] at hold
    have hmem : p.name.text ∈ bound := by
      have := hf.bound.isSome_iff.1 hold
      rwa [List.append_nil] at this
    refine (Meets.report hready').after fun _ _ h _ _ =>
      .pure h ⟨hf.bound.congr rfl (fun n => ?_) fun _ _ => Iff.rfl, hf.blocks⟩
    rw [List.mem_append, List.mem_singleton, or_iff_left_iff_imp]
    rintro rfl
    exact hmem
  next =>
    split
    · refine (Meets.report hready').after fun _ _ h _ _ => ?_
      exact (Meets.spanInFile h).after fun _ _ h _ _ => .pure h (hf.put rfl rfl rfl)
    · exact (Meets.spanInFile hready').after fun _ _ h _ _ => .pure h (hf.put rfl rfl rfl)

theorem meets_buildParams (index : ℕ) (ps : List Parameter) {f : Function} {bound : List String}
    (hready : Ready ns b.table) (hf : Opened f bound) :
    Meets ns (ps.flatMap (·.type.demands)) (buildParams index ps f) b
      fun g _ => Opened g (bound ++ ps.map (·.name.text)) := by
  induction ps generalizing index f bound b with
  | nil => exact .pure hready (by rwa [List.map_nil, List.append_nil])
  | cons p rest ih =>
    rw [buildParams, List.flatMap_cons]
    refine (meets_buildParam index p hready hf).bind fun g b' h _ hg => ?_
    refine (ih _ h hg).imp fun g' _ _ hg' => ?_
    rwa [List.append_assoc] at hg'

end MovePlan.Text
