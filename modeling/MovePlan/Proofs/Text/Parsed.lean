import MovePlan.Proofs.Text.Parsed.Functions

set_option autoImplicit false

namespace MovePlan.Text
open Expected

theorem readDeclarations_writes {ds : List Declaration} {ls : List Lexeme} (hds : Writes ds ls) {fuel : ℕ}
    (hfuel : ls.length < fuel) {h : Head} (hat : h.At ls) :
    ∃ ds', readDeclarations fuel h = .ok ds' ∧ ds'.map Declaration.plain = ds.map Declaration.plain := by
  induction fuel generalizing ds ls h with
  | zero => exact absurd hfuel (Nat.not_lt_zero _)
  | succ fuel ih =>
  cases hds with
  | nil =>
    refine ⟨[], ?_, rfl⟩
    have hfinish : h.isAt .finish = true := (hat.isAt _).trans (decide_eq_true rfl)
    rw [readDeclarations, if_pos hfinish]
    rfl
  | @cons d ds ls ls' hd hds =>
    have hnext : firstOf ls' ∈ afterItem := by
      have hfirst : firstOf (ls' ++ []) ∈ item ++ [.finish] :=
        hds.begins WritesDeclaration.begins (List.mem_singleton_self _)
      rw [List.append_nil] at hfirst
      exact (by decide : item ++ [.finish] ⊆ afterItem) hfirst
    obtain ⟨hle, hlt⟩ := hd.begins.fuel (by decide) hfuel
    cases d with
    | type name isScalar attributes span =>
      obtain ⟨d', h₁, hread, hplain, hat₁⟩ := takes_readTypeDecl hd hle h _ hat hnext
      obtain ⟨ds', hmore, hplain'⟩ := ih hds hlt hat₁
      refine ⟨d' :: ds', ?_, congrArg₂ List.cons hplain hplain'⟩
      rw [readDeclarations, if_neg (hat.ne_true (hd.begins_type _) (by decide)),
        if_pos (hat.isWord_of_begins hd.begins_type)]
      exact step_ok hread (step_ok hmore rfl)
    | struct name attributes fields span =>
      obtain ⟨d', h₁, hread, hplain, hat₁⟩ := takes_readStructDecl hd hle h _ hat hnext
      obtain ⟨ds', hmore, hplain'⟩ := ih hds hlt hat₁
      refine ⟨d' :: ds', ?_, congrArg₂ List.cons hplain hplain'⟩
      rw [readDeclarations, if_neg (hat.ne_true (hd.begins_struct _) (by decide)),
        if_neg (hat.not_word (hd.begins_struct _) .type (by decide)),
        if_pos (hat.isWord_of_begins hd.begins_struct)]
      exact step_ok hread (step_ok hmore rfl)
    | function f =>
      cases hd with
      | function hf =>
      obtain ⟨f', h₁, hread, hplain, hat₁⟩ := takes_readFunction f hf hle h _ hat
        ((by decide : afterItem ⊆ followsFunction) hnext)
      obtain ⟨ds', hmore, hplain'⟩ := ih hds hlt hat₁
      refine ⟨.function f' :: ds', ?_, congrArg₂ List.cons (congrArg Declaration.function hplain) hplain'⟩
      rw [readDeclarations, if_neg (hat.ne_true (hf.begins _) (by decide)),
        if_neg (hat.not_word (hf.begins _) .type (by decide)),
        if_neg (hat.not_word (hf.begins _) .struct (by decide)), if_pos (hat.isWord_of_begins hf.begins)]
      exact step_ok hread (step_ok hmore rfl)

theorem Lexeme.chars_ne_nil (l : Lexeme) : l.chars ≠ [] := by
  cases l with
  | word k =>
    obtain ⟨c, cs, htext, -⟩ := k.exists_text
    exact fun hnil => List.cons_ne_nil c cs (htext.symm.trans hnil)
  | mark m =>
    obtain ⟨c, cs, htext, -⟩ := m.exists_text
    exact fun hnil => List.cons_ne_nil c cs (htext.symm.trans hnil)
  | name s hs =>
    obtain ⟨c, cs, htext, -⟩ := isIdentifier_iff.1 hs
    exact fun hnil => List.cons_ne_nil c cs (htext.symm.trans hnil)
  | number s hs =>
    obtain ⟨c, cs, htext, -⟩ := isNumber_iff.1 hs
    exact fun hnil => List.cons_ne_nil c cs (htext.symm.trans hnil)

theorem Layout.length_lexemes (x : Layout) : x.lexemes.length ≤ x.text.length := by
  have main : ∀ tokens : List (Gap × Lexeme),
      tokens.length ≤ (tokens.flatMap fun p => p.1.chars ++ p.2.chars).length := by
    intro tokens
    induction tokens with
    | nil => exact Nat.le_refl _
    | cons p rest ih =>
      have hpos := List.length_pos_iff.2 p.2.chars_ne_nil
      rw [List.flatMap_cons, List.length_append, List.length_append, List.length_cons]
      omega
  have htokens := main x.tokens
  rw [Layout.text, String.length_ofList, Layout.chars, Layout.lexemes, List.length_map, List.length_append]
  omega

/-- Whatever stands between the tokens, a text is read as the declarations that it was written from. -/
theorem readText_layout {ds : List Declaration} {x : Layout} (hds : Writes ds x.lexemes) :
    ∃ ds', readText x.text = .ok ds' ∧ ds'.map Declaration.plain = ds.map Declaration.plain := by
  have hfirst : firstOf (x.lexemes ++ []) ∈ item ++ [.finish] :=
    hds.begins WritesDeclaration.begins (List.mem_singleton_self _)
  rw [List.append_nil] at hfirst
  obtain ⟨h, hstart, hat⟩ := x.start ((by decide : item ++ [.finish] ⊆ .finish :: item) hfirst)
  have hfuel : x.lexemes.length < x.text.length + 2 := Nat.lt_add_right 1 (Nat.lt_succ_of_le x.length_lexemes)
  obtain ⟨ds', hread, hplain⟩ := readDeclarations_writes hds hfuel hat
  exact ⟨ds', step_ok hstart hread, hplain⟩

end MovePlan.Text
