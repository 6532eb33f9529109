import MovePlan.Flow.Function
import MovePlan.Proofs.Answer

set_option autoImplicit false

namespace MovePlan
open Numeral

theorem Numeral.text?_eq_some {n : Int} {t : String} :
    text? n = some t ↔ isPrintable n = true ∧ s!"{n}" = t := by
  rw [text?]
  split <;> simp_all

theorem Site.describe?_eq_some {s : Site} {t : String} : s.describe? = some t ↔
    isPrintable s.block = true ∧ isPrintable s.index = true ∧
      ∃ place, dotted (s.binding.getD "<temp>") s.path = place ∧
        s!"{s.kind.label} {place} @bb{s.block}[{s.index}]" = t := by
  simp only [describe?, Option.bind_eq_bind, Option.bind_eq_some_iff, text?_eq_some, Option.pure_def,
    Option.some.injEq]
  constructor
  · rintro ⟨block, ⟨hblock, rfl⟩, index, ⟨hindex, rfl⟩, rfl⟩
    exact ⟨hblock, hindex, _, rfl, rfl⟩
  · rintro ⟨hblock, hindex, _, rfl, rfl⟩
    exact ⟨_, ⟨hblock, rfl⟩, _, ⟨hindex, rfl⟩, rfl⟩

theorem Site.isSome_describe? {s : Site} :
    s.describe?.isSome = true ↔ isPrintable s.block = true ∧ isPrintable s.index = true := by
  simp only [Option.isSome_iff_exists, describe?_eq_some, exists_and_left, exists_eq',
    exists_eq_left', and_true]

/-- A report can name the site, and say where it stands in its text. -/
structure Site.Legible (s : Site) : Prop where
  position : s.describe?.isSome = true
  span : s.span.render?.isSome = true

instance (s : Site) : Decidable s.Legible :=
  decidable_of_iff (s.describe?.isSome = true ∧ s.span.render?.isSome = true)
    ⟨fun h => ⟨h.1, h.2⟩, fun h => ⟨h.position, h.span⟩⟩

/-- All sites of the function can be named in a report. -/
def Function.Legible (f : Function) : Prop := ∀ s ∈ f.allSites, s.Legible

instance (f : Function) : Decidable f.Legible := inferInstanceAs (Decidable (∀ s ∈ f.allSites, s.Legible))

end MovePlan
