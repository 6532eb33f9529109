import MovePlan.Proofs.Text.Parsed.Types

set_option autoImplicit false

namespace MovePlan.Text
open Expected

theorem takes_readPath {path : Path} {ls : List Lexeme} (hpath : Each (After .dot WritesName) path ls)
    {fuel : ℕ} (hfuel : ls.length < fuel) :
    Takes (readPath fuel) (only .arrow ++ statement) (fun path' => path' = path) ls := by
  induction fuel generalizing path ls with
  | zero => exact absurd hfuel (Nat.not_lt_zero _)
  | succ fuel ih =>
  intro h rest hat hfollow
  cases hpath with
  | nil =>
    refine ⟨[], h, ?_, rfl, hat⟩
    rw [readPath, if_neg (hat.not_mark hfollow .dot (by decide))]
    rfl
  | @cons s path _ ls' hs hpath =>
    obtain ⟨hname⟩ := hs
    rename_i ls
    have hnext : firstOf (ls' ++ rest) ∈ only .dot ++ (only .arrow ++ statement) :=
      hpath.begins After.begins hfollow
    rw [List.append_assoc] at hat
    rw [List.length_append, List.length_cons] at hfuel
    obtain ⟨h₁, hpass, hat₁⟩ := hat.pass aName (hname.begins.fits (List.Subset.refl _) _)
    obtain ⟨n, h₂, hread, htext, hat₂⟩ := takes_name hname afterPlaceName h₁ _ hat₁
      ((by decide : only .dot ++ (only .arrow ++ statement) ⊆ .finish :: afterPlaceName) hnext)
    obtain ⟨path', h', hmore, hsame, hrest⟩ := ih hpath (by omega) h₂ rest hat₂ hfollow
    refine ⟨n.text :: path', h', ?_, by rw [htext, hsame], hrest⟩
    rw [readPath, if_pos hat.isMark]
    exact step_ok hpass (step_ok hread (step_ok hmore rfl))

theorem takes_readPlace {place : PlaceExpr} {ls : List Lexeme} (hplace : WritesPlace place ls) {fuel : ℕ}
    (hfuel : ls.length ≤ fuel) :
    Takes (readPlace fuel) (only .arrow ++ statement) (fun place' => place' = place) ls := by
  cases hplace with
  | @mk binding path ns ls hname hpath =>
  intro h rest hat hfollow
  have hnext : firstOf (ls ++ rest) ∈ only .dot ++ (only .arrow ++ statement) :=
    hpath.begins After.begins hfollow
  have hlt : ls.length < fuel := by
    have hpos : 0 < ns.length := by
      cases hname
      exact Nat.one_pos
    rw [List.length_append] at hfuel
    omega
  rw [List.append_assoc] at hat
  obtain ⟨n, h₁, hread, htext, hat₁⟩ := takes_name hname afterPlaceName h _ hat
    ((by decide : only .dot ++ (only .arrow ++ statement) ⊆ .finish :: afterPlaceName) hnext)
  obtain ⟨path', h', hmore, hsame, hrest⟩ := takes_readPath hpath hlt h₁ rest hat₁ hfollow
  exact ⟨{ binding := n.text, path := path' }, h', step_ok hread (step_ok hmore rfl), by rw [htext, hsame],
    hrest⟩

theorem first_flags {β : Type} {word : β → Keyword} {starts follow : List Terminal} {rest : List Lexeme}
    (hstarts : ∀ flag, Terminal.keyword (word flag) ∈ starts) (flags : List β) (hrest : firstOf rest ∈ follow) :
    firstOf (flags.map (fun flag => Lexeme.word (word flag)) ++ rest) ∈ starts ++ follow := by
  cases flags with
  | nil => exact List.mem_append_right _ hrest
  | cons flag flags => exact List.mem_append_left _ (hstarts flag)

theorem TargetFlag.word_mem (flag : TargetFlag) : Terminal.keyword flag.word ∈ targetFlag := by
  cases flag <;> decide

theorem MoveFlag.word_mem (flag : MoveFlag) : Terminal.keyword flag.word ∈ words [.explicit, .fwd] := by
  cases flag <;> decide

theorem takes_readTargetFlags (flags : List TargetFlag) {fuel : ℕ} (hfuel : flags.length < fuel) :
    Takes (readTargetFlags fuel) statement (fun flags' => flags' = flags) (flagWords flags) := by
  induction fuel generalizing flags with
  | zero => exact absurd hfuel (Nat.not_lt_zero _)
  | succ fuel ih =>
  intro h rest hat hfollow
  cases flags with
  | nil =>
    refine ⟨[], h, ?_, rfl, hat⟩
    rw [readTargetFlags, hat.find?_eq_none hfollow (by decide)]
    rfl
  | cons flag flags =>
    have hfind : (targetFlags.find? fun e => h.isWord e.1) = some (flag.word, flag) :=
      (hat.find?_word _).trans (by cases flag <;> rfl)
    obtain ⟨h₁, hpass, hat₁⟩ := hat.pass targetFlag
      ((by decide : targetFlag ++ statement ⊆ .finish :: targetFlag) (first_flags TargetFlag.word_mem flags hfollow))
    obtain ⟨flags', h', hmore, hsame, hrest⟩ := ih flags (Nat.lt_of_succ_lt_succ hfuel) h₁ rest hat₁ hfollow
    refine ⟨flag :: flags', h', ?_, by rw [hsame], hrest⟩
    rw [readTargetFlags, hfind]
    exact step_ok hpass (step_ok hmore rfl)

theorem takes_readTarget {t : TargetExpr} {ls : List Lexeme} (ht : WritesTarget t ls) {fuel : ℕ}
    (hfuel : ls.length ≤ fuel) : Takes (readTarget fuel) statement (fun t' => t' = t) ls := by
  intro h rest hat hfollow
  cases ht with
  | @call callee index ns is hname hindex flags =>
    simp only [List.cons_append, List.append_assoc] at hat
    have hlt : flags.length < fuel := by
      simp only [List.length_cons, List.length_append, flagWords, List.length_map] at hfuel
      omega
    obtain ⟨h₁, hpass, hat₁⟩ := hat.pass aName (hname.begins.fits (List.Subset.refl _) _)
    obtain ⟨n, h₂, hread, htext, hat₂⟩ := takes_name hname (only .openBracket) h₁ _ hat₁ (fits_mark (by decide))
    obtain ⟨h₃, hopen, hat₃⟩ := hat₂.takeMark aNumber (hindex.begins.fits (List.Subset.refl _) _)
    obtain ⟨i, h₄, hnumber, hsame, hat₄⟩ := takes_number hindex (only .closeBracket) h₃ _ hat₃
      (fits_mark (by decide))
    obtain ⟨h₅, hclose, hat₅⟩ := hat₄.takeMark targetFlag
      ((by decide : targetFlag ++ statement ⊆ .finish :: targetFlag) (first_flags TargetFlag.word_mem flags hfollow))
    obtain ⟨flags', h', hmore, hsame', hrest⟩ := takes_readTargetFlags flags hlt h₅ rest hat₅ hfollow
    refine ⟨.call n.text i flags', h', ?_, by rw [htext, hsame, hsame'], hrest⟩
    rw [readTarget, if_pos hat.isWord]
    exact step_ok hpass (step_ok hread (step_ok hopen (step_ok hnumber (step_ok hclose (step_ok hmore rfl)))))
  | result flags =>
    have hlt : flags.length < fuel := by
      rwa [List.length_cons, flagWords, List.length_map] at hfuel
    obtain ⟨h₁, hpass, hat₁⟩ := hat.pass targetFlag
      ((by decide : targetFlag ++ statement ⊆ .finish :: targetFlag) (first_flags TargetFlag.word_mem flags hfollow))
    obtain ⟨flags', h', hmore, hsame, hrest⟩ := takes_readTargetFlags flags hlt h₁ rest hat₁ hfollow
    refine ⟨.result flags', h', ?_, by rw [hsame], hrest⟩
    rw [readTarget, if_neg (hat.not_word (first_word _ _) .call (by decide)), if_pos hat.isWord]
    exact step_ok hpass (step_ok hmore rfl)
  | assign hname =>
    obtain ⟨h₁, hword, hat₁⟩ := hat.takeWord aName (hname.begins.fits (List.Subset.refl _) _)
    obtain ⟨n, h', hread, htext, hrest⟩ := takes_name hname statement h₁ rest hat₁
      (List.mem_cons_of_mem _ hfollow)
    refine ⟨.assign n.text, h', ?_, by rw [htext], hrest⟩
    rw [readTarget, if_neg (hat.not_word (first_word _ _) .call (by decide)),
      if_neg (hat.not_word (first_word _ _) .result (by decide))]
    exact step_ok hword (step_ok hread rfl)

theorem takes_readMoveFlags (flags : List MoveFlag) {fuel : ℕ} (hfuel : flags.length < fuel) :
    Takes (readMoveFlags fuel) aName (fun flags' => flags' = flags) (flags.map fun f => .word f.word) := by
  induction fuel generalizing flags with
  | zero => exact absurd hfuel (Nat.not_lt_zero _)
  | succ fuel ih =>
  intro h rest hat hfollow
  cases flags with
  | nil =>
    refine ⟨[], h, ?_, rfl, hat⟩
    rw [readMoveFlags, if_neg (hat.not_word hfollow .explicit (by decide)),
      if_neg (hat.not_word hfollow .fwd (by decide))]
    rfl
  | cons flag flags =>
    obtain ⟨h₁, hpass, hat₁⟩ := hat.pass moveOperandRest
      ((by decide : words [.explicit, .fwd] ++ aName ⊆ .finish :: moveOperandRest)
        (first_flags MoveFlag.word_mem flags hfollow))
    obtain ⟨flags', h', hmore, hsame, hrest⟩ := ih flags (Nat.lt_of_succ_lt_succ hfuel) h₁ rest hat₁ hfollow
    refine ⟨flag :: flags', h', ?_, by rw [hsame], hrest⟩
    rw [readMoveFlags]
    cases flag with
    | explicit =>
      have hhere : h.isWord .explicit = true := hat.isWord
      rw [if_pos hhere]
      exact step_ok hpass (step_ok hmore rfl)
    | fwd =>
      have hhere : h.At (.word .fwd :: (flags.map (fun f => .word f.word) ++ rest)) := hat
      rw [if_neg (hhere.not_word (first_word _ _) .explicit (by decide)), if_pos hhere.isWord]
      exact step_ok hpass (step_ok hmore rfl)

/-- A move is read from the token after its word. -/
theorem takes_readMove {s : SiteExpr} {ls : List Lexeme} (hs : WritesSite s (.word .move :: ls)) {fuel : ℕ}
    (hfuel : ls.length < fuel) : Takes (readMove fuel) statement (fun s' => s'.plain = s.plain) ls := by
  intro h rest hat hfollow
  generalize hall : Lexeme.word .move :: ls = all at hs
  cases hs with
  | decl | read | write | addr => cases hall
  | @temp t target ts rs ht htarget =>
    obtain rfl : ls = _ := List.tail_eq_of_cons_eq hall
    simp only [List.cons_append, List.append_assoc] at hat
    simp only [List.length_cons, List.length_append] at hfuel
    have hlt : ts.length < fuel := by omega
    have hle : rs.length ≤ fuel := by omega
    obtain ⟨h₁, hpass, hat₁⟩ := hat.pass type (ht.begins.fits (List.Subset.refl _) _)
    obtain ⟨t', h₂, htype, hplain, hat₂⟩ := takes_readType ht hlt h₁ _ hat₁
      ((by decide : only .arrow ⊆ afterType) (first_mark _ _))
    obtain ⟨h₃, harrow, hat₃⟩ := hat₂.takeMark Expected.target (htarget.begins.fits (List.Subset.refl _) _)
    obtain ⟨target', h', hread, hsame, hrest⟩ := takes_readTarget htarget hle h₃ rest hat₃ hfollow
    refine ⟨.temp t' target', h', ?_, ?_, hrest⟩
    · rw [readMove, if_pos hat.isWord]
      exact step_ok hpass (step_ok htype (step_ok harrow (step_ok hread rfl)))
    · simp only [SiteExpr.plain, hplain, hsame]
  | @move flags place target ps ts hplace htarget =>
    obtain rfl : ls = _ := List.tail_eq_of_cons_eq hall
    simp only [List.cons_append, List.append_assoc] at hat
    simp only [List.length_cons, List.length_append, List.length_map] at hfuel
    have hlt : flags.length < fuel := by omega
    have hle : ps.length ≤ fuel := by omega
    have hle' : ts.length ≤ fuel := by omega
    have hname := hplace.begins (.mark .arrow :: (ts ++ rest))
    have hfirst := first_flags MoveFlag.word_mem flags hname
    obtain ⟨flags', h₁, hflags, hsame, hat₁⟩ := takes_readMoveFlags flags hlt h _ hat hname
    obtain ⟨place', h₂, hread, hsame', hat₂⟩ := takes_readPlace hplace hle h₁ _ hat₁
      (List.mem_append_left _ (first_mark .arrow _))
    obtain ⟨h₃, harrow, hat₃⟩ := hat₂.takeMark Expected.target (htarget.begins.fits (List.Subset.refl _) _)
    obtain ⟨target', h', htarget', hsame'', hrest⟩ := takes_readTarget htarget hle' h₃ rest hat₃ hfollow
    refine ⟨.move flags' place' target', h', ?_, by rw [hsame, hsame', hsame''], hrest⟩
    rw [readMove, if_neg (hat.not_word hfirst .temp (by decide))]
    exact step_ok hflags (step_ok hread (step_ok harrow (step_ok htarget' rfl)))

theorem exists_readPlace {k : Keyword} {place : PlaceExpr} {ls rest : List Lexeme} (hplace : WritesPlace place ls)
    {fuel : ℕ} (hfuel : ls.length < fuel) {h : Head} (hat : h.At (.word k :: (ls ++ rest)))
    (hfollow : firstOf rest ∈ statement) :
    ∃ h₁ h', h.pass aName = .ok h₁ ∧ readPlace fuel h₁ = .ok (place, h') ∧ h'.At rest := by
  obtain ⟨h₁, hpass, hat₁⟩ := hat.pass aName (hplace.begins.fits (List.Subset.refl _) _)
  obtain ⟨place', h', hread, rfl, hrest⟩ := takes_readPlace hplace (Nat.le_of_succ_le hfuel) h₁ rest hat₁
    (List.subset_append_right _ _ hfollow)
  exact ⟨h₁, h', hpass, hread, hrest⟩

theorem takes_readDecl {name : Name} {t : TypeExpr} {ls : List Lexeme}
    (hs : WritesSite (.decl name t) ls) {fuel : ℕ} (hfuel : ls.length ≤ fuel) :
    Takes (readSite? fuel) statement (fun s' => s'.map SiteExpr.plain = some (SiteExpr.decl name t).plain) ls := by
  intro h rest hat hfollow
  cases hs with
  | @decl name t ns ls hname ht =>
    simp only [List.cons_append, List.append_assoc] at hat
    have hlt : ls.length < fuel := by
      simp only [List.length_cons, List.length_append] at hfuel
      omega
    obtain ⟨h₁, hpass, hat₁⟩ := hat.pass aName (hname.begins.fits (List.Subset.refl _) _)
    obtain ⟨n, h₂, hread, htext, hat₂⟩ := takes_name hname (only .colon) h₁ _ hat₁ (fits_mark (by decide))
    obtain ⟨h₃, hcolon, hat₃⟩ := hat₂.takeMark type (ht.begins.fits (List.Subset.refl _) _)
    obtain ⟨t', h', htype, hplain, hrest⟩ := takes_readType ht hlt h₃ rest hat₃
      ((by decide : statement ⊆ afterType) hfollow)
    refine ⟨some (.decl n t'), h', ?_, ?_, hrest⟩
    · rw [readSite?, if_pos hat.isWord]
      exact step_ok hpass (step_ok hread (step_ok hcolon (step_ok htype rfl)))
    · simp only [Option.map_some, SiteExpr.plain, hplain, Name.plain_eq_iff.2 htext]

theorem readSite?_move {h h₁ h' : Head} {ls : List Lexeme} {s : SiteExpr} {fuel : ℕ}
    (hat : h.At (.word .move :: ls)) (hpass : h.pass moveOperand = .ok h₁)
    (hread : readMove fuel h₁ = .ok (s, h')) : readSite? fuel h = .ok (some s, h') := by
  rw [readSite?, if_neg (hat.not_word (first_word _ _) .decl (by decide)),
    if_neg (hat.not_word (first_word _ _) .read (by decide)),
    if_neg (hat.not_word (first_word _ _) .write (by decide)),
    if_neg (hat.not_word (first_word _ _) .addr (by decide)), if_pos hat.isWord]
  exact step_ok hpass (step_ok hread rfl)

theorem takes_readSite? {s : SiteExpr} {ls : List Lexeme} (hs : WritesSite s ls) {fuel : ℕ}
    (hfuel : ls.length ≤ fuel) :
    Takes (readSite? fuel) statement (fun s' => s'.map SiteExpr.plain = some s.plain) ls := by
  intro h rest hat hfollow
  cases hs with
  | @decl name t ns ls hname ht => exact takes_readDecl (.decl hname ht) hfuel h rest hat hfollow
  | @read place ls hplace =>
    obtain ⟨h₁, h', hpass, hread, hrest⟩ := exists_readPlace hplace hfuel hat hfollow
    refine ⟨some (.read place), h', ?_, rfl, hrest⟩
    rw [readSite?, if_neg (hat.not_word (first_word _ _) .decl (by decide)), if_pos hat.isWord]
    exact step_ok hpass (step_ok hread rfl)
  | @write place ls hplace =>
    obtain ⟨h₁, h', hpass, hread, hrest⟩ := exists_readPlace hplace hfuel hat hfollow
    refine ⟨some (.write place), h', ?_, rfl, hrest⟩
    rw [readSite?, if_neg (hat.not_word (first_word _ _) .decl (by decide)),
      if_neg (hat.not_word (first_word _ _) .read (by decide)), if_pos hat.isWord]
    exact step_ok hpass (step_ok hread rfl)
  | @addr place ls hplace =>
    obtain ⟨h₁, h', hpass, hread, hrest⟩ := exists_readPlace hplace hfuel hat hfollow
    refine ⟨some (.addr place), h', ?_, rfl, hrest⟩
    rw [readSite?, if_neg (hat.not_word (first_word _ _) .decl (by decide)),
      if_neg (hat.not_word (first_word _ _) .read (by decide)),
      if_neg (hat.not_word (first_word _ _) .write (by decide)), if_pos hat.isWord]
    exact step_ok hpass (step_ok hread rfl)
  | @move flags place target ps ts hplace htarget =>
    have hname := hplace.begins (.mark .arrow :: ts ++ rest)
    have hfits : firstOf (flags.map (fun f => .word f.word) ++ (ps ++ .mark .arrow :: ts) ++ rest) ∈
        Terminal.finish :: moveOperand := by
      rw [List.append_assoc, List.append_assoc]
      exact (by decide : words [.explicit, .fwd] ++ aName ⊆ .finish :: moveOperand)
        (first_flags MoveFlag.word_mem flags hname)
    obtain ⟨h₁, hpass, hat₁⟩ := hat.pass moveOperand hfits
    obtain ⟨s', h', hread, hplain, hrest⟩ :=
      takes_readMove (.move flags hplace htarget) hfuel h₁ rest hat₁ hfollow
    exact ⟨some s', h', readSite?_move hat hpass hread, congrArg some hplain, hrest⟩
  | @temp t target ts rs ht htarget =>
    obtain ⟨h₁, hpass, hat₁⟩ := hat.pass moveOperand (fits_word (by decide))
    obtain ⟨s', h', hread, hplain, hrest⟩ := takes_readMove (.temp ht htarget) hfuel h₁ rest hat₁ hfollow
    exact ⟨some s', h', readSite?_move hat hpass hread, congrArg some hplain, hrest⟩

end MovePlan.Text
