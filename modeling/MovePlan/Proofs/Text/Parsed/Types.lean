import MovePlan.Proofs.Text.Parsed.Start

set_option autoImplicit false

namespace MovePlan.Text
open Expected

/-- A reader takes the tokens of a phrase where one of some terminals follows. -/
def Takes {α : Type} (read : Read α) (follow : List Terminal) (good : α → Prop) (ls : List Lexeme) : Prop :=
  ∀ (h : Head) (rest : List Lexeme), h.At (ls ++ rest) → firstOf rest ∈ follow →
    ∃ a h', read h = .ok (a, h') ∧ good a ∧ h'.At rest

theorem takes_name {s : String} {ls : List Lexeme} (hs : WritesName s ls) (after : List Terminal) :
    Takes (takeName after) (.finish :: after) (fun n => n.text = s) ls := by
  obtain ⟨hname⟩ := hs
  intro h rest hat hfollow
  obtain ⟨h', htake, hrest⟩ := hat.take after hfollow
  exact ⟨{ text := h.token.text, span := h.token.span }, h', step_ok htake rfl, hat.2.1, hrest⟩

theorem takes_number {n : Numeral} {ls : List Lexeme} (hn : WritesNumber n ls) (after : List Terminal) :
    Takes (takeNumber after) (.finish :: after) (fun m => m = n) ls := by
  obtain ⟨hnumber⟩ := hn
  intro h rest hat hfollow
  obtain ⟨h', htake, hrest⟩ := hat.take after hfollow
  have htext : h.token.text = _ := hat.2.1
  exact ⟨Numeral.ofText h.token.text, h', step_ok htake rfl, by rw [htext, Lexeme.text], hrest⟩

theorem takes_readType {t : TypeExpr} {ls : List Lexeme} (ht : WritesType t ls) {fuel : ℕ}
    (hfuel : ls.length < fuel) :
    Takes (readType fuel) afterType (fun t' => t'.plain = t.plain) ls := by
  induction fuel generalizing t ls with
  | zero => exact absurd hfuel (Nat.not_lt_zero _)
  | succ fuel ih =>
  intro h rest hat hfollow
  cases ht with
  | @named name _ hname =>
    have hfirst := hname.begins rest
    obtain ⟨n, h', hread, htext, hrest⟩ := takes_name hname afterType h rest hat (List.mem_cons_of_mem _ hfollow)
    refine ⟨.named n, h', ?_, congrArg TypeExpr.named (Name.plain_eq_iff.2 htext), hrest⟩
    rw [readType, if_neg (hat.not_mark hfirst .star (by decide)),
      if_neg (hat.not_mark hfirst .ampersand (by decide))]
    exact step_ok hread rfl
  | @pointer t ls hinner =>
    obtain ⟨h₁, hpass, hat₁⟩ := hat.pass type (hinner.begins.fits (List.Subset.refl _) rest)
    obtain ⟨t', h', hread, hplain, hrest⟩ := ih hinner (Nat.lt_of_succ_lt_succ hfuel) h₁ rest hat₁ hfollow
    refine ⟨.pointer t', h', ?_, congrArg TypeExpr.pointer hplain, hrest⟩
    rw [readType, if_pos hat.isMark]
    exact step_ok hpass (step_ok hread rfl)
  | @shared t ls hinner =>
    obtain ⟨h₁, hpass, hat₁⟩ := hat.pass afterAmpersand (hinner.begins.fits (by decide) rest)
    obtain ⟨t', h', hread, hplain, hrest⟩ := ih hinner (Nat.lt_of_succ_lt_succ hfuel) h₁ rest hat₁ hfollow
    refine ⟨.reference false t', h', ?_, congrArg (TypeExpr.reference false) hplain, hrest⟩
    rw [readType, if_neg (hat.not_mark (first_mark _ _) .star (by decide)), if_pos hat.isMark]
    refine step_ok hpass ?_
    rw [if_neg (hat₁.not_word (hinner.begins rest) .mutable (by decide))]
    exact step_ok hread rfl
  | @«mutable» t ls hinner =>
    obtain ⟨h₁, hpass₁, hat₁⟩ := hat.pass afterAmpersand (fits_word (by decide))
    obtain ⟨h₂, hpass₂, hat₂⟩ := hat₁.pass type (hinner.begins.fits (List.Subset.refl _) rest)
    have hlt : ls.length < fuel := Nat.lt_of_succ_lt (Nat.lt_of_succ_lt_succ hfuel)
    obtain ⟨t', h', hread, hplain, hrest⟩ := ih hinner hlt h₂ rest hat₂ hfollow
    refine ⟨.reference true t', h', ?_, congrArg (TypeExpr.reference true) hplain, hrest⟩
    rw [readType, if_neg (hat.not_mark (first_mark _ _) .star (by decide)), if_pos hat.isMark]
    refine step_ok hpass₁ ?_
    rw [if_pos hat₁.isWord]
    exact step_ok hpass₂ (step_ok hread rfl)

def afterAttributes : List Terminal := .finish :: .mark .openBrace :: item

theorem takes_readCanFail (fails : Bool) :
    Takes readCanFail (attribute_ ++ afterAttributes) (fun b => b = fails) (failMark fails) := by
  intro h rest hat hfollow
  cases fails with
  | false =>
    refine ⟨false, h, ?_, rfl, hat⟩
    rw [readCanFail, if_neg (hat.not_mark hfollow .openParen (by decide))]
    rfl
  | true =>
    obtain ⟨h₁, hopen, hat₁⟩ := hat.pass canFail (fits_word (by decide))
    obtain ⟨h₂, hword, hat₂⟩ := hat₁.takeWord (only .closeParen) (fits_mark (by decide))
    obtain ⟨h₃, hclose, hat₃⟩ := hat₂.takeMark afterAttribute
      ((by decide : attribute_ ++ afterAttributes ⊆ .finish :: afterAttribute) hfollow)
    refine ⟨true, h₃, ?_, rfl, hat₃⟩
    rw [readCanFail, if_pos hat.isMark]
    exact step_ok hopen (step_ok hword (step_ok hclose rfl))

theorem takes_readAttributes {as : List TypeAttribute} {ls : List Lexeme} (has : Each WritesAttribute as ls)
    {fuel : ℕ} (hfuel : ls.length < fuel) : Takes (readAttributes fuel) afterAttributes
      (fun as' => as'.map TypeAttribute.plain = as.map TypeAttribute.plain) ls := by
  induction fuel generalizing as ls with
  | zero => exact absurd hfuel (Nat.not_lt_zero _)
  | succ fuel ih =>
  intro h rest hat hfollow
  cases has with
  | nil =>
    refine ⟨[], h, ?_, rfl, hat⟩
    rw [readAttributes, if_neg (hat.not_word hfollow .drop (by decide)),
      if_neg (hat.not_word hfollow .moveCtor (by decide)), if_neg (hat.not_word hfollow .moveAssign (by decide))]
    rfl
  | @cons a as ls ls' ha has =>
    have hnext : firstOf (ls' ++ rest) ∈ attribute_ ++ afterAttributes :=
      has.begins WritesAttribute.begins hfollow
    rw [List.length_append] at hfuel
    rw [List.append_assoc] at hat
    cases ha with
    | drop =>
      obtain ⟨h₁, hpass, hat₁⟩ := hat.pass afterAttribute
        ((by decide : attribute_ ++ afterAttributes ⊆ .finish :: afterAttribute) hnext)
      obtain ⟨as', h', hread, hplain, hrest⟩ :=
        ih has (by rw [List.length_singleton] at hfuel; omega) h₁ rest hat₁ hfollow
      refine ⟨.drop :: as', h', ?_, congrArg (List.cons TypeAttribute.drop) hplain, hrest⟩
      rw [readAttributes, if_pos hat.isWord]
      exact step_ok hpass (step_ok hread rfl)
    | moveCtor fails span =>
      obtain ⟨h₁, hpass, hat₁⟩ := hat.pass afterMoveWord (fits_failMark fails hnext (by decide))
      obtain ⟨_, h₂, hfails, hsame, hat₂⟩ := takes_readCanFail fails h₁ _ hat₁ hnext
      rw [hsame] at hfails
      obtain ⟨as', h', hread, hplain, hrest⟩ :=
        ih has (by rw [List.length_cons] at hfuel; omega) h₂ rest hat₂ hfollow
      refine ⟨.moveCtor fails (spanOf h.token h₂.last) :: as', h', ?_,
        congrArg (List.cons (TypeAttribute.moveCtor fails {})) hplain, hrest⟩
      rw [readAttributes, if_neg (hat.not_word (first_word _ _) .drop (by decide)), if_pos hat.isWord]
      exact step_ok hpass (step_ok hfails (step_ok hread rfl))
    | moveAssign fails span =>
      obtain ⟨h₁, hpass, hat₁⟩ := hat.pass afterMoveWord (fits_failMark fails hnext (by decide))
      obtain ⟨_, h₂, hfails, hsame, hat₂⟩ := takes_readCanFail fails h₁ _ hat₁ hnext
      rw [hsame] at hfails
      obtain ⟨as', h', hread, hplain, hrest⟩ :=
        ih has (by rw [List.length_cons] at hfuel; omega) h₂ rest hat₂ hfollow
      refine ⟨.moveAssign fails (spanOf h.token h₂.last) :: as', h', ?_,
        congrArg (List.cons (TypeAttribute.moveAssign fails {})) hplain, hrest⟩
      rw [readAttributes, if_neg (hat.not_word (first_word _ _) .drop (by decide)),
        if_neg (hat.not_word (first_word _ _) .moveCtor (by decide)), if_pos hat.isWord]
      exact step_ok hpass (step_ok hfails (step_ok hread rfl))

def afterItem : List Terminal := .finish :: item

theorem takes_readTypeDecl {name : Name} {isScalar : Bool} {as : List TypeAttribute} {span : Span}
    {ls : List Lexeme} (hd : WritesDeclaration (.type name isScalar as span) ls) {fuel : ℕ}
    (hfuel : ls.length ≤ fuel) : Takes (readTypeDecl fuel) afterItem
      (fun d => d.plain = Declaration.plain (.type name isScalar as span)) ls := by
  cases hd with
  | @type _ _ _ ns ls hname has =>
  intro h rest hat hfollow
  have hkind : ∀ ls, firstOf (.word (if isScalar then .scalar else .foreign) :: ls) ∈
      Terminal.finish :: typeKind := by
    intro ls
    cases isScalar <;> exact fits_word (by decide)
  have hnext : firstOf (ls ++ rest) ∈ attribute_ ++ afterItem := has.begins WritesAttribute.begins hfollow
  simp only [List.cons_append, List.append_assoc] at hat
  have hlt : ls.length < fuel := by
    simp only [List.length_cons, List.length_append] at hfuel
    omega
  obtain ⟨h₁, hpass, hat₁⟩ := hat.pass aName (hname.begins.fits (List.Subset.refl _) _)
  obtain ⟨n, h₂, hread, htext, hat₂⟩ := takes_name hname typeKind h₁ _ hat₁ (hkind _)
  obtain ⟨h₃, hpass₃, hat₃⟩ := hat₂.pass afterKind
    ((by decide : attribute_ ++ afterItem ⊆ .finish :: afterKind) hnext)
  obtain ⟨as', h₄, hattributes, hplain, hrest⟩ := takes_readAttributes has hlt h₃ rest hat₃
    ((by decide : afterItem ⊆ afterAttributes) hfollow)
  refine ⟨.type n isScalar as' (spanOf h.token h₄.last), h₄, ?_, ?_, hrest⟩
  · refine step_ok hpass (step_ok hread ?_)
    have hscalar : h₂.isWord .scalar = isScalar := by
      cases isScalar
      · exact Bool.eq_false_iff.2 (hat₂.not_word (first_word _ _) .scalar (by decide))
      · exact hat₂.isWord
    have hkind : ¬ (!isScalar && !h₂.isWord .foreign) = true := by
      cases isScalar with
      | false =>
        have hforeign : h₂.isWord .foreign = true := hat₂.isWord
        rw [hforeign]
        decide
      | true => simp
    dsimp only
    rw [hscalar, if_neg hkind]
    exact step_ok hpass₃ (step_ok hattributes rfl)
  · simp only [Declaration.plain, hplain, Name.plain_eq_iff.2 htext]

def afterField : List Terminal := only .comma ++ only .closeBrace

theorem takes_readField {f : FieldDecl} {ls : List Lexeme} (hf : WritesField f ls) {fuel : ℕ}
    (hfuel : ls.length ≤ fuel) : Takes (readField fuel) afterField (fun f' => f'.plain = f.plain) ls := by
  cases hf with
  | @mk name t ns ls hname ht =>
  intro h rest hat hfollow
  simp only [List.cons_append, List.append_assoc] at hat
  have hlt : ls.length < fuel := by
    simp only [List.length_cons, List.length_append] at hfuel
    omega
  obtain ⟨n, h₁, hread, htext, hat₁⟩ := takes_name hname (only .colon) h _ hat (fits_mark (by decide))
  obtain ⟨h₂, hcolon, hat₂⟩ := hat₁.takeMark type (ht.begins.fits (List.Subset.refl _) _)
  obtain ⟨t', h₃, htype, hplain, hrest⟩ := takes_readType ht hlt h₂ rest hat₂
    ((by decide : afterField ⊆ afterType) hfollow)
  refine ⟨{ name := n, type := t' }, h₃, step_ok hread (step_ok hcolon (step_ok htype rfl)), ?_, hrest⟩
  simp only [FieldDecl.plain, hplain, Name.plain_eq_iff.2 htext]

theorem WritesFields.begins {fs : List FieldDecl} {ls rest : List Lexeme} (h : WritesFields fs ls)
    (hrest : firstOf rest ∈ only .closeBrace) : firstOf (ls ++ rest) ∈ field := by
  cases h with
  | nil => exact (by decide : only .closeBrace ⊆ field) hrest
  | last h => exact (by decide : aName ⊆ field) (h.begins rest)
  | cons h _ =>
    rw [List.append_assoc]
    exact (by decide : aName ⊆ field) (h.begins _)

theorem takes_readFields {fs : List FieldDecl} {ls : List Lexeme} (hfs : WritesFields fs ls) {fuel : ℕ}
    (hfuel : ls.length < fuel) : Takes (readFields fuel) (only .closeBrace)
      (fun fs' => fs'.map FieldDecl.plain = fs.map FieldDecl.plain) ls := by
  induction fuel generalizing fs ls with
  | zero => exact absurd hfuel (Nat.not_lt_zero _)
  | succ fuel ih =>
  intro h rest hat hfollow
  cases hfs with
  | nil =>
    refine ⟨[], h, ?_, rfl, hat⟩
    have hclose : h.isMark .closeBrace = true := by
      rw [Head.isMark, hat.isAt, decide_eq_true_iff]
      exact List.mem_singleton.1 hfollow
    rw [readFields, if_pos hclose]
    rfl
  | @last f _ hf =>
    have hfirst := hf.begins rest
    obtain ⟨f', h', hread, hplain, hrest⟩ := takes_readField hf (Nat.le_of_lt_succ hfuel) h rest hat
      ((by decide : only .closeBrace ⊆ afterField) hfollow)
    refine ⟨[f'], h', ?_, congrArg (fun x => [x]) hplain, hrest⟩
    rw [readFields, if_neg (hat.not_mark hfirst .closeBrace (by decide))]
    refine step_ok hread ?_
    dsimp only
    rw [if_neg (hrest.not_mark hfollow .comma (by decide))]
    rfl
  | @cons f fs ls ls' hf hfs =>
    have hfirst := hf.begins (.mark .comma :: ls' ++ rest)
    rw [List.append_assoc] at hat
    rw [List.length_append, List.length_cons] at hfuel
    have hle : ls.length ≤ fuel := by omega
    obtain ⟨f', h₁, hread, hplain, hat₁⟩ := takes_readField hf hle h _ hat
      (List.mem_append_left _ (first_mark .comma _))
    obtain ⟨h₂, hpass, hat₂⟩ := hat₁.pass field (List.mem_cons_of_mem _ (hfs.begins hfollow))
    obtain ⟨fs', h', hmore, hplain', hrest⟩ := ih hfs (by omega) h₂ rest hat₂ hfollow
    refine ⟨f' :: fs', h', ?_, congrArg₂ List.cons hplain hplain', hrest⟩
    rw [readFields, if_neg (hat.not_mark hfirst .closeBrace (by decide))]
    refine step_ok hread ?_
    dsimp only
    rw [if_pos hat₁.isMark]
    exact step_ok hpass (step_ok hmore rfl)

theorem takes_readStructDecl {name : Name} {as : List TypeAttribute} {fields : List FieldDecl} {span : Span}
    {ls : List Lexeme} (hd : WritesDeclaration (.struct name as fields span) ls) {fuel : ℕ}
    (hfuel : ls.length ≤ fuel) : Takes (readStructDecl fuel) afterItem
      (fun d => d.plain = Declaration.plain (.struct name as fields span)) ls := by
  cases hd with
  | @struct _ _ _ ns ls fs hname has hfields =>
  intro h rest hat hfollow
  simp only [List.cons_append, List.append_assoc] at hat
  simp only [List.length_cons, List.length_append] at hfuel
  have hlt : ls.length < fuel := by omega
  have hlt' : fs.length < fuel := by omega
  have hnext : firstOf (ls ++ .mark .openBrace :: (fs ++ .mark .closeBrace :: rest)) ∈
      attribute_ ++ only .openBrace :=
    has.begins WritesAttribute.begins (first_mark _ _)
  obtain ⟨h₁, hpass, hat₁⟩ := hat.pass aName (hname.begins.fits (List.Subset.refl _) _)
  obtain ⟨n, h₂, hread, htext, hat₂⟩ := takes_name hname afterStructName h₁ _ hat₁
    ((by decide : attribute_ ++ only .openBrace ⊆ .finish :: afterStructName) hnext)
  obtain ⟨as', h₃, hattributes, hplain, hat₃⟩ := takes_readAttributes has hlt h₂ _ hat₂
    ((by decide : only .openBrace ⊆ afterAttributes) (first_mark _ _))
  obtain ⟨h₄, hopen, hat₄⟩ := hat₃.takeMark field (List.mem_cons_of_mem _ (hfields.begins (first_mark _ _)))
  obtain ⟨fs', h₅, hmore, hplain', hat₅⟩ := takes_readFields hfields hlt' h₄ _ hat₄ (first_mark _ _)
  obtain ⟨h₆, hclose, hrest⟩ := hat₅.takeMark item hfollow
  refine ⟨.struct n as' fs' (spanOf h.token h₆.last), h₆, ?_, ?_, hrest⟩
  · exact step_ok hpass (step_ok hread (step_ok hattributes (step_ok hopen (step_ok hmore
      (step_ok hclose rfl)))))
  · simp only [Declaration.plain, hplain, hplain', Name.plain_eq_iff.2 htext]

end MovePlan.Text
