import MovePlan.Proofs.Text.Parsed.Blocks

set_option autoImplicit false

namespace MovePlan.Text
open Expected

theorem modeWord_mem (mode : PassMode) : Terminal.keyword (modeWord mode) ∈ words [.value, .moveRef, .ref] := by
  cases mode <;> decide

theorem step_forward (forward : Bool) {h : Head} {rest : List Lexeme} (hat : h.At (forwardWords forward ++ rest))
    (hfollow : firstOf rest ∈ nameListRest) : ∃ h', h'.At rest ∧
      ∀ {α : Type} (next : Bool × Head → Except ReadError α),
        (if h.isWord .forward = true then (h.pass nameListRest >>= fun h => pure (true, h)) >>= next
          else Except.ok (false, h) >>= next) = next (forward, h') := by
  cases forward with
  | false =>
    refine ⟨h, hat, fun next => ?_⟩
    rw [if_neg (hat.not_word hfollow .forward (by decide))]
    rfl
  | true =>
    obtain ⟨h', hpass, hrest⟩ := hat.pass nameListRest (List.mem_cons_of_mem _ hfollow)
    refine ⟨h', hrest, fun next => ?_⟩
    rw [if_pos hat.isWord, hpass]
    rfl

theorem takes_readParam {p : Parameter} {ls : List Lexeme} (hp : WritesParam p ls) {fuel : ℕ}
    (hfuel : ls.length ≤ fuel) : Takes (readParam fuel) nameListRest (fun p' => p'.plain = p.plain) ls := by
  cases hp with
  | @mk name mode t forward ns ls hname ht =>
  intro h rest hat hfollow
  simp only [List.cons_append, List.append_assoc] at hat
  have hlt : ls.length < fuel := by
    simp only [List.length_cons, List.length_append] at hfuel
    omega
  have htype : firstOf (ls ++ (forwardWords forward ++ rest)) ∈ type := ht.begins _
  have hmode : firstOf (modeWords mode ++ (ls ++ (forwardWords forward ++ rest))) ∈ Terminal.finish :: paramType := by
    cases mode with
    | none => exact List.mem_cons_of_mem _ ((by decide : type ⊆ paramType) htype)
    | some mode => exact List.mem_cons_of_mem _ (List.mem_append_left _ (modeWord_mem mode))
  have hforward : firstOf (forwardWords forward ++ rest) ∈ afterType := by
    cases forward with
    | false => exact (by decide : nameListRest ⊆ afterType) hfollow
    | true => exact (by decide : Terminal.keyword .forward ∈ afterType)
  obtain ⟨n, h₁, hread, htext, hat₁⟩ := takes_name hname (only .colon) h _ hat (fits_mark (by decide))
  obtain ⟨h₂, hcolon, hat₂⟩ := hat₁.takeMark paramType hmode
  -- The way of passing is one token or none; from there on both readings are the same.
  cases mode with
  | none =>
    obtain ⟨t', h₃, htype', hplain, hat₃⟩ := takes_readType ht hlt h₂ _ hat₂ hforward
    obtain ⟨h', hrest, hmark⟩ := step_forward forward hat₃ hfollow
    refine ⟨{ name := n, mode := none, type := t', forward := forward }, h', ?_, ?_, hrest⟩
    · refine step_ok hread (step_ok hcolon ?_)
      dsimp only
      rw [hat₂.find?_eq_none htype (by decide)]
      exact step_ok rfl (step_ok htype' (hmark _))
    · simp only [Parameter.plain, Name.plain_eq_iff.2 htext, hplain]
  | some mode =>
    have hfind : (passModes.find? fun m => h₂.isWord m.1) = some (modeWord mode, mode) :=
      (hat₂.find?_word _).trans (by cases mode <;> rfl)
    obtain ⟨h₃, hpass, hat₃⟩ := hat₂.pass type (List.mem_cons_of_mem _ htype)
    obtain ⟨t', h₄, htype', hplain, hat₄⟩ := takes_readType ht hlt h₃ _ hat₃ hforward
    obtain ⟨h', hrest, hmark⟩ := step_forward forward hat₄ hfollow
    refine ⟨{ name := n, mode := some mode, type := t', forward := forward }, h', ?_, ?_, hrest⟩
    · refine step_ok hread (step_ok hcolon ?_)
      dsimp only
      rw [hfind]
      exact step_ok (step_ok hpass rfl) (step_ok htype' (hmark _))
    · simp only [Parameter.plain, Name.plain_eq_iff.2 htext, hplain]

theorem takes_readMoreParams {ps : List Parameter} {ls : List Lexeme} (hps : Each (After .comma WritesParam) ps ls)
    {fuel : ℕ} (hfuel : ls.length < fuel) : Takes (readMoreParams fuel) (only .closeParen)
      (fun ps' => ps'.map Parameter.plain = ps.map Parameter.plain) ls := by
  induction fuel generalizing ps ls with
  | zero => exact absurd hfuel (Nat.not_lt_zero _)
  | succ fuel ih =>
  intro h rest hat hfollow
  cases hps with
  | nil =>
    refine ⟨[], h, ?_, rfl, hat⟩
    rw [readMoreParams, if_neg (hat.not_mark hfollow .comma (by decide))]
    rfl
  | @cons p ps ls ls' hp hps =>
    obtain ⟨hp⟩ := hp
    rename_i ls
    have hnext : firstOf (ls' ++ rest) ∈ only .comma ++ only .closeParen := hps.begins After.begins hfollow
    rw [List.append_assoc] at hat
    rw [List.length_append, List.length_cons] at hfuel
    have hle : ls.length ≤ fuel := by omega
    obtain ⟨h₁, hpass, hat₁⟩ := hat.pass aName (hp.begins.fits (List.Subset.refl _) _)
    obtain ⟨p', h₂, hread, hplain, hat₂⟩ := takes_readParam hp hle h₁ _ hat₁ hnext
    obtain ⟨ps', h', hmore, hplain', hrest⟩ := ih hps (by omega) h₂ rest hat₂ hfollow
    refine ⟨p' :: ps', h', ?_, congrArg₂ List.cons hplain hplain', hrest⟩
    rw [readMoreParams, if_pos hat.isMark]
    exact step_ok hpass (step_ok hread (step_ok hmore rfl))

theorem WritesParams.begins {ps : List Parameter} {ls rest : List Lexeme} (h : WritesParams ps ls)
    (hrest : firstOf rest ∈ only .closeParen) : firstOf (ls ++ rest) ∈ param := by
  cases h with
  | nil => exact (by decide : only .closeParen ⊆ param) hrest
  | cons h _ =>
    rw [List.append_assoc]
    exact (by decide : aName ⊆ param) (h.begins _)

theorem takes_readParams {ps : List Parameter} {ls : List Lexeme} (hps : WritesParams ps ls) {fuel : ℕ}
    (hfuel : ls.length < fuel) : Takes (readParams fuel) (only .closeParen)
      (fun ps' => ps'.map Parameter.plain = ps.map Parameter.plain) ls := by
  intro h rest hat hfollow
  cases hps with
  | nil =>
    have hclose : h.isMark .closeParen = true := by
      rw [Head.isMark, hat.isAt, decide_eq_true_iff]
      exact List.mem_singleton.1 hfollow
    refine ⟨[], h, ?_, rfl, hat⟩
    rw [readParams, if_pos hclose]
    rfl
  | @cons p ps ls ls' hp hps =>
    have hnext : firstOf (ls' ++ rest) ∈ only .comma ++ only .closeParen := hps.begins After.begins hfollow
    rw [List.append_assoc] at hat
    rw [List.length_append] at hfuel
    have hle : ls.length ≤ fuel := by omega
    have hlt : ls'.length < fuel := by omega
    obtain ⟨p', h₁, hread, hplain, hat₁⟩ := takes_readParam hp hle h _ hat hnext
    obtain ⟨ps', h', hmore, hplain', hrest⟩ := takes_readMoreParams hps hlt h₁ rest hat₁ hfollow
    refine ⟨p' :: ps', h', ?_, congrArg₂ List.cons hplain hplain', hrest⟩
    rw [readParams, if_neg (hat.not_mark (hp.begins _) .closeParen (by decide))]
    exact step_ok hread (step_ok hmore rfl)

theorem takes_readMoreNames {names : List String} {ls : List Lexeme} (hns : Each (After .comma WritesName) names ls)
    {fuel : ℕ} (hfuel : ls.length < fuel) :
    Takes (readMoreNames fuel) (only .closeParen) (fun names' => names' = names) ls := by
  induction fuel generalizing names ls with
  | zero => exact absurd hfuel (Nat.not_lt_zero _)
  | succ fuel ih =>
  intro h rest hat hfollow
  cases hns with
  | nil =>
    refine ⟨[], h, ?_, rfl, hat⟩
    rw [readMoreNames, if_neg (hat.not_mark hfollow .comma (by decide))]
    rfl
  | @cons name names ls ls' hname hns =>
    obtain ⟨hname⟩ := hname
    rename_i ls
    have hnext : firstOf (ls' ++ rest) ∈ nameListRest := hns.begins After.begins hfollow
    rw [List.append_assoc] at hat
    rw [List.length_append, List.length_cons] at hfuel
    obtain ⟨h₁, hpass, hat₁⟩ := hat.pass aName (hname.begins.fits (List.Subset.refl _) _)
    obtain ⟨n, h₂, hread, htext, hat₂⟩ := takes_name hname nameListRest h₁ _ hat₁ (List.mem_cons_of_mem _ hnext)
    obtain ⟨names', h', hmore, hsame, hrest⟩ := ih hns (by omega) h₂ rest hat₂ hfollow
    refine ⟨n.text :: names', h', ?_, by rw [htext, hsame], hrest⟩
    rw [readMoreNames, if_pos hat.isMark]
    exact step_ok hpass (step_ok hread (step_ok hmore rfl))

theorem WritesCaptures.begins {names : List String} {ls rest : List Lexeme} (h : WritesCaptures names ls)
    (hrest : firstOf rest ∈ only .openBrace) : firstOf (ls ++ rest) ∈ bodyOrCaptures := by
  cases h with
  | nil => exact (by decide : only .openBrace ⊆ bodyOrCaptures) hrest
  | cons => exact List.mem_append_left _ (first_word _ _)

theorem takes_readCaptures {names : List String} {ls : List Lexeme} (hns : WritesCaptures names ls)
    {fuel : ℕ} (hfuel : ls.length < fuel) :
    Takes (readCaptures fuel) (only .openBrace) (fun names' => names' = names) ls := by
  induction fuel generalizing names ls with
  | zero => exact absurd hfuel (Nat.not_lt_zero _)
  | succ fuel ih =>
  intro h rest hat hfollow
  cases hns with
  | nil =>
    refine ⟨[], h, ?_, rfl, hat⟩
    rw [readCaptures, if_neg (hat.not_word hfollow .captures (by decide))]
    rfl
  | @cons name names others ns ls ls' hname hnames hothers =>
    simp only [List.cons_append, List.append_assoc] at hat
    simp only [List.length_cons, List.length_append] at hfuel
    have hlt : ls.length < fuel := by omega
    have hnext : firstOf (ls ++ .mark .closeParen :: (ls' ++ rest)) ∈ nameListRest :=
      hnames.begins After.begins (first_mark .closeParen _)
    obtain ⟨h₁, hpass, hat₁⟩ := hat.pass (only .openParen) (fits_mark (by decide))
    obtain ⟨h₂, hopen, hat₂⟩ := hat₁.takeMark aName (hname.begins.fits (List.Subset.refl _) _)
    obtain ⟨n, h₃, hread, htext, hat₃⟩ := takes_name hname nameListRest h₂ _ hat₂ (List.mem_cons_of_mem _ hnext)
    obtain ⟨names', h₄, hmore, hsame, hat₄⟩ := takes_readMoreNames hnames hlt h₃ _ hat₃ (first_mark _ _)
    obtain ⟨h₅, hclose, hat₅⟩ := hat₄.takeMark bodyOrCaptures (List.mem_cons_of_mem _ (hothers.begins hfollow))
    obtain ⟨others', h', hrest', hsame', hrest⟩ := ih hothers (by omega) h₅ rest hat₅ hfollow
    refine ⟨n.text :: names' ++ others', h', ?_, by rw [htext, hsame, hsame'], hrest⟩
    rw [readCaptures, if_pos hat.isWord]
    exact step_ok hpass (step_ok hopen (step_ok hread (step_ok hmore (step_ok hclose (step_ok hrest' rfl)))))

/-- What may follow a function: another declaration, or what the body around it goes on with. -/
def followsFunction : List Terminal := .finish :: afterFunction

mutual

theorem takes_readFunction (f : FunctionDecl) {ls : List Lexeme} (hf : WritesFunction f ls) {fuel : ℕ}
    (hfuel : ls.length ≤ fuel) : Takes (readFunction fuel) followsFunction (fun f' => f'.plain = f.plain) ls := by
  cases hf with
  | @mk name params captures body ns ps cs bs hname hparams hcaptures hbody span =>
  cases fuel with
  | zero => exact absurd hfuel (Nat.not_succ_le_zero _)
  | succ fuel =>
  intro h rest hat hfollow
  simp only [List.cons_append, List.append_assoc] at hat
  simp only [List.length_cons, List.length_append] at hfuel
  have hps : ps.length < fuel := by omega
  have hcs : cs.length < fuel := by omega
  have hbs : bs.length < fuel := by omega
  obtain ⟨h₁, hpass, hat₁⟩ := hat.pass aName (hname.begins.fits (List.Subset.refl _) _)
  obtain ⟨n, h₂, hread, htext, hat₂⟩ := takes_name hname (only .openParen) h₁ _ hat₁ (fits_mark (by decide))
  obtain ⟨h₃, hopen, hat₃⟩ := hat₂.takeMark param (List.mem_cons_of_mem _ (hparams.begins (first_mark _ _)))
  obtain ⟨params', h₄, hparams', hplain, hat₄⟩ := takes_readParams hparams hps h₃ _ hat₃ (first_mark _ _)
  obtain ⟨h₅, hclose, hat₅⟩ := hat₄.takeMark bodyOrCaptures
    (List.mem_cons_of_mem _ (hcaptures.begins (first_mark _ _)))
  obtain ⟨captures', h₆, hcaptures', hsame, hat₆⟩ := takes_readCaptures hcaptures hcs h₅ _ hat₅ (first_mark _ _)
  have hnext : firstOf (bs ++ .mark .closeBrace :: rest) ∈ Terminal.finish :: member :=
    List.mem_cons_of_mem _ (hbody.begins (first_mark .closeBrace _))
  obtain ⟨h₇, hopen', hat₇⟩ := hat₆.takeMark member hnext
  obtain ⟨body', h₈, hbody', hplain', hat₈⟩ := takes_readMembers body hbody hbs h₇ _ hat₇ (first_mark _ _)
  obtain ⟨h₉, hclose', hrest⟩ := hat₈.takeMark afterFunction hfollow
  refine ⟨.mk n params' captures' body' (spanOf h.token h₉.last), h₉, ?_, ?_, hrest⟩
  · rw [readFunction]
    exact step_ok hpass (step_ok hread (step_ok hopen (step_ok hparams' (step_ok hclose
      (step_ok hcaptures' (step_ok hopen' (step_ok hbody' (step_ok hclose' rfl))))))))
  · simp only [FunctionDecl.plain, Name.plain_eq_iff.2 htext, hplain, hsame, hplain']

theorem takes_readMembers (body : Members) {ls : List Lexeme} (hbody : WritesMembers body ls) {fuel : ℕ}
    (hfuel : ls.length < fuel) :
    Takes (readMembers fuel) (only .closeBrace) (fun body' => body'.plain = body.plain) ls := by
  cases fuel with
  | zero => exact absurd hfuel (Nat.not_lt_zero _)
  | succ fuel =>
  intro h rest hat hfollow
  cases hbody with
  | nil =>
    refine ⟨.nil, h, ?_, rfl, hat⟩
    rw [readMembers, if_neg (hat.not_word hfollow .block (by decide)),
      if_neg (hat.not_word hfollow .scope (by decide)), if_neg (hat.not_word hfollow .fn (by decide))]
    rfl
  | @block b body ls ls' hb hbody =>
    have hnext : firstOf (ls' ++ rest) ∈ member := hbody.begins hfollow
    obtain ⟨hle, hlt⟩ := hb.begins.fuel (by decide) hfuel
    rw [List.append_assoc] at hat
    obtain ⟨b', h₁, hread, hplain, hat₁⟩ := takes_readBlock hb hle h _ hat hnext
    obtain ⟨body', h', hmore, hplain', hrest⟩ := takes_readMembers body hbody hlt h₁ rest hat₁ hfollow
    refine ⟨.block b' body', h', ?_, congrArg₂ Members.block hplain hplain', hrest⟩
    rw [readMembers, if_pos (hat.isWord_of_begins hb.begins)]
    exact step_ok hread (step_ok hmore rfl)
  | @scope s body ls ls' hs hbody =>
    have hnext : firstOf (ls' ++ rest) ∈ member := hbody.begins hfollow
    obtain ⟨hle, hlt⟩ := hs.begins.fuel (by decide) hfuel
    rw [List.append_assoc] at hat
    obtain ⟨s', h₁, hread, hplain, hat₁⟩ := takes_readScope hs hle h _ hat hnext
    obtain ⟨body', h', hmore, hplain', hrest⟩ := takes_readMembers body hbody hlt h₁ rest hat₁ hfollow
    refine ⟨.scope s' body', h', ?_, congrArg₂ Members.scope hplain hplain', hrest⟩
    rw [readMembers, if_neg (hat.not_word (hs.begins _) .block (by decide)),
      if_pos (hat.isWord_of_begins hs.begins)]
    exact step_ok hread (step_ok hmore rfl)
  | @nested f body ls ls' hf hbody =>
    have hnext : firstOf (ls' ++ rest) ∈ member := hbody.begins hfollow
    obtain ⟨hle, hlt⟩ := hf.begins.fuel (by decide) hfuel
    rw [List.append_assoc] at hat
    obtain ⟨f', h₁, hread, hplain, hat₁⟩ := takes_readFunction f hf hle h _ hat
      ((by decide : member ⊆ followsFunction) hnext)
    obtain ⟨body', h', hmore, hplain', hrest⟩ := takes_readMembers body hbody hlt h₁ rest hat₁ hfollow
    refine ⟨.nested f' body', h', ?_, congrArg₂ Members.nested hplain hplain', hrest⟩
    rw [readMembers, if_neg (hat.not_word (hf.begins _) .block (by decide)),
      if_neg (hat.not_word (hf.begins _) .scope (by decide)), if_pos (hat.isWord_of_begins hf.begins)]
    exact step_ok hread (step_ok hmore rfl)

end

end MovePlan.Text
