import MovePlan.Proofs.Text.Parsed.Sites

set_option autoImplicit false

namespace MovePlan.Text
open Expected

def siteWords : List Keyword := [.decl, .read, .write, .addr, .move]

theorem readSite?_eq_none {h : Head} {ls : List Lexeme} {follow : List Terminal} (hat : h.At ls)
    (hfollow : firstOf ls ∈ follow) (hnone : ∀ k ∈ siteWords, .keyword k ∉ follow) (fuel : ℕ) :
    readSite? fuel h = .ok (none, h) := by
  have hword : ∀ k ∈ siteWords, ¬ h.isWord k = true := fun k hk => hat.not_word hfollow k (hnone k hk)
  rw [readSite?, if_neg (hword .decl (by decide)), if_neg (hword .read (by decide)),
    if_neg (hword .write (by decide)), if_neg (hword .addr (by decide)), if_neg (hword .move (by decide))]
  rfl

theorem EdgeWord.word_mem (word : EdgeWord) :
    Terminal.keyword word.word ∈ words [.goto, .onTrue, .onFalse, .back, .skip] := by
  cases word <;> decide

theorem takes_readStatement? {s : Statement} {ls : List Lexeme} (hs : WritesStatement s ls) {fuel : ℕ}
    (hfuel : ls.length ≤ fuel) :
    Takes (readStatement? fuel) statement (fun s' => s'.map Statement.plain = some s.plain) ls := by
  intro h rest hat hfollow
  cases hs with
  | site hs span =>
    obtain ⟨s', h', hread, hplain, hrest⟩ := takes_readSite? hs hfuel h rest hat hfollow
    obtain ⟨e, rfl, he⟩ := Option.map_eq_some_iff.1 hplain
    refine ⟨some (.site e (spanOf h.token h'.last)), h', step_ok hread rfl, ?_, hrest⟩
    exact congrArg (fun e => some (Statement.site e {})) he
  | @edge word dst ls hdst =>
    have hfirst := word.word_mem
    have hsite := readSite?_eq_none hat hfirst (by decide) fuel
    have hfind : (edgeWords.find? fun e => h.isWord e.1) = some (word.word, word) :=
      (hat.find?_word _).trans (by cases word <;> rfl)
    obtain ⟨h₁, hpass, hat₁⟩ := hat.pass aNumber (hdst.begins.fits (List.Subset.refl _) _)
    obtain ⟨n, h', hread, hsame, hrest⟩ := takes_number hdst statement h₁ rest hat₁
      (List.mem_cons_of_mem _ hfollow)
    refine ⟨some (.edge word n), h', step_ok hsite ?_, by rw [hsame]; rfl, hrest⟩
    dsimp only
    rw [hfind]
    exact step_ok hpass (step_ok hread rfl)
  | @jump label ls hlabel =>
    have hfirst := first_word .jump (ls ++ rest)
    have hsite := readSite?_eq_none hat hfirst (by decide) fuel
    obtain ⟨h₁, hpass, hat₁⟩ := hat.pass aName (hlabel.begins.fits (List.Subset.refl _) _)
    obtain ⟨n, h', hread, htext, hrest⟩ := takes_name hlabel statement h₁ rest hat₁
      (List.mem_cons_of_mem _ hfollow)
    refine ⟨some (.jump n.text), h', step_ok hsite ?_, by rw [htext]; rfl, hrest⟩
    dsimp only
    rw [hat.find?_eq_none hfirst (by decide)]
    dsimp only
    rw [if_pos hat.isWord]
    exact step_ok hpass (step_ok hread rfl)
  | ret =>
    have hfirst := first_word .ret rest
    have hsite := readSite?_eq_none hat hfirst (by decide) fuel
    obtain ⟨h', hpass, hrest⟩ := hat.pass statement (List.mem_cons_of_mem _ hfollow)
    refine ⟨some .ret, h', step_ok hsite ?_, rfl, hrest⟩
    dsimp only
    rw [hat.find?_eq_none hfirst (by decide)]
    dsimp only
    rw [if_neg (hat.not_word hfirst .jump (by decide)), if_pos hat.isWord]
    exact step_ok hpass rfl

theorem takes_readStatements {body : List Statement} {ls : List Lexeme} (hbody : Each WritesStatement body ls)
    {fuel : ℕ} (hfuel : ls.length < fuel) : Takes (readStatements fuel) member
      (fun body' => body'.map Statement.plain = body.map Statement.plain) ls := by
  induction fuel generalizing body ls with
  | zero => exact absurd hfuel (Nat.not_lt_zero _)
  | succ fuel ih =>
  intro h rest hat hfollow
  cases hbody with
  | nil =>
    have hsite := readSite?_eq_none hat hfollow (by decide) fuel
    have hnone : readStatement? fuel h = .ok (none, h) := by
      refine step_ok hsite ?_
      dsimp only
      rw [hat.find?_eq_none hfollow (by decide)]
      dsimp only
      rw [if_neg (hat.not_word hfollow .jump (by decide)), if_neg (hat.not_word hfollow .ret (by decide))]
      rfl
    exact ⟨[], h, step_ok hnone rfl, rfl, hat⟩
  | @cons s body ls ls' hs hbody =>
    have hnext : firstOf (ls' ++ rest) ∈ statementWords ++ member := hbody.begins WritesStatement.begins hfollow
    obtain ⟨hle, hlt⟩ := hs.begins.fuel (by decide) hfuel
    rw [List.append_assoc] at hat
    obtain ⟨s', h₁, hread, hplain, hat₁⟩ := takes_readStatement? hs hle h _ hat hnext
    obtain ⟨e, rfl, he⟩ := Option.map_eq_some_iff.1 hplain
    obtain ⟨body', h', hmore, hplain', hrest⟩ := ih hbody hlt h₁ rest hat₁ hfollow
    exact ⟨e :: body', h', step_ok hread (step_ok hmore rfl), congrArg₂ List.cons he hplain', hrest⟩

theorem takes_readBlock {b : BlockDecl} {ls : List Lexeme} (hb : WritesBlock b ls) {fuel : ℕ}
    (hfuel : ls.length ≤ fuel) : Takes (readBlock fuel) member (fun b' => b'.plain = b.plain) ls := by
  cases hb with
  | @mk id label body is ns ls hid hlabel hbody span =>
  intro h rest hat hfollow
  simp only [List.cons_append, List.append_assoc] at hat
  have hlt : ls.length < fuel := by
    simp only [List.length_cons, List.length_append] at hfuel
    omega
  have hnext : firstOf (ls ++ rest) ∈ Terminal.finish :: statement :=
    List.mem_cons_of_mem _ (hbody.begins WritesStatement.begins hfollow)
  have hcolon : firstOf (.mark .colon :: (ls ++ rest)) ∈ only .colon := first_mark _ _
  obtain ⟨h₁, hpass, hat₁⟩ := hat.pass aNumber (hid.begins.fits (List.Subset.refl _) _)
  cases hlabel with
  | none =>
    obtain ⟨n, h₂, hread, hsame, hat₂⟩ := takes_number hid blockLabel h₁ _ hat₁ (fits_mark (by decide))
    obtain ⟨h₃, htake, hat₃⟩ := hat₂.takeMark statement hnext
    obtain ⟨body', h', hmore, hplain, hrest⟩ := takes_readStatements hbody hlt h₃ rest hat₃ hfollow
    refine ⟨{ id := n, label := none, body := body', span := spanOf h.token h'.last }, h', ?_, ?_, hrest⟩
    · refine step_ok hpass (step_ok hread ?_)
      dsimp only
      rw [if_neg (hat₂.ne_true hcolon (by decide))]
      exact step_ok rfl (step_ok htake (step_ok hmore rfl))
    · simp only [BlockDecl.plain, hplain, hsame]
  | @some name ns hname =>
    obtain ⟨n, h₂, hread, hsame, hat₂⟩ := takes_number hid blockLabel h₁ _ hat₁
      (hname.begins.fits (by decide) _)
    obtain ⟨l, h₃, hlabel, htext, hat₃⟩ := takes_name hname (only .colon) h₂ _ hat₂ (fits_mark (by decide))
    obtain ⟨h₄, htake, hat₄⟩ := hat₃.takeMark statement hnext
    obtain ⟨body', h', hmore, hplain, hrest⟩ := takes_readStatements hbody hlt h₄ rest hat₄ hfollow
    have hhere : h₂.isAt .name = true := by
      rw [hat₂.isAt, decide_eq_true_iff]
      exact List.mem_singleton.1 (hname.begins _)
    refine ⟨{ id := n, label := some l, body := body', span := spanOf h.token h'.last }, h', ?_, ?_, hrest⟩
    · refine step_ok hpass (step_ok hread ?_)
      dsimp only
      rw [if_pos hhere]
      exact step_ok (step_ok hlabel rfl) (step_ok htake (step_ok hmore rfl))
    · simp only [BlockDecl.plain, hplain, hsame, Option.map_some, Name.plain_eq_iff.2 htext]

theorem takes_readNumbers {ns : List Numeral} {ls : List Lexeme} (hns : Each WritesNumber ns ls) {fuel : ℕ}
    (hfuel : ls.length < fuel) : Takes (readNumbers fuel) member (fun ns' => ns' = ns) ls := by
  induction fuel generalizing ns ls with
  | zero => exact absurd hfuel (Nat.not_lt_zero _)
  | succ fuel ih =>
  intro h rest hat hfollow
  cases hns with
  | nil =>
    refine ⟨[], h, ?_, rfl, hat⟩
    rw [readNumbers, if_neg (hat.ne_true hfollow (by decide))]
    rfl
  | @cons n ns ls ls' hn hns =>
    have hnext : firstOf (ls' ++ rest) ∈ aNumber ++ member := hns.begins WritesNumber.begins hfollow
    have hlt : ls'.length < fuel := by
      cases hn
      exact Nat.lt_of_succ_lt_succ hfuel
    rw [List.append_assoc] at hat
    have hhere : h.isAt .number = true := by
      rw [hat.isAt, decide_eq_true_iff]
      exact List.mem_singleton.1 (hn.begins _)
    obtain ⟨n', h₁, hread, hsame, hat₁⟩ := takes_number hn scopeNumberRest h _ hat
      (List.mem_cons_of_mem _ hnext)
    obtain ⟨ns', h', hmore, hsame', hrest⟩ := ih hns hlt h₁ rest hat₁ hfollow
    refine ⟨n' :: ns', h', ?_, by rw [hsame, hsame'], hrest⟩
    rw [readNumbers, if_pos hhere]
    exact step_ok hread (step_ok hmore rfl)

theorem takes_readScope {s : ScopeDecl} {ls : List Lexeme} (hs : WritesScope s ls) {fuel : ℕ}
    (hfuel : ls.length ≤ fuel) : Takes (readScope fuel) member (fun s' => s'.plain = s.plain) ls := by
  cases hs with
  | @mk name first others ns is ls hname hfirst hothers =>
  intro h rest hat hfollow
  simp only [List.cons_append, List.append_assoc] at hat
  have hlt : ls.length < fuel := by
    simp only [List.length_cons, List.length_append] at hfuel
    omega
  have hnext : firstOf (ls ++ rest) ∈ aNumber ++ member := hothers.begins WritesNumber.begins hfollow
  obtain ⟨h₁, hpass, hat₁⟩ := hat.pass aName (hname.begins.fits (List.Subset.refl _) _)
  obtain ⟨n, h₂, hread, htext, hat₂⟩ := takes_name hname (only .colon) h₁ _ hat₁ (fits_mark (by decide))
  obtain ⟨h₃, hcolon, hat₃⟩ := hat₂.takeMark aNumber (hfirst.begins.fits (List.Subset.refl _) _)
  obtain ⟨i, h₄, hnumber, hsame, hat₄⟩ := takes_number hfirst scopeNumberRest h₃ _ hat₃
    (List.mem_cons_of_mem _ hnext)
  obtain ⟨others', h', hmore, hsame', hrest⟩ := takes_readNumbers hothers hlt h₄ rest hat₄ hfollow
  refine ⟨{ name := n, blocks := i :: others' }, h', ?_, ?_, hrest⟩
  · exact step_ok hpass (step_ok hread (step_ok hcolon (step_ok hnumber (step_ok hmore rfl))))
  · simp only [ScopeDecl.plain, Name.plain_eq_iff.2 htext, hsame, hsame']

end MovePlan.Text
