import MovePlan.Proofs.Answer
import MovePlan.Proofs.Text.Grammar
import MovePlan.Text.Reader

set_option autoImplicit false

namespace MovePlan.Text
open Expected

namespace Head.At
variable {h : Head} {ls : List Lexeme}

theorem isAt (hat : h.At ls) (t : Terminal) : h.isAt t = decide (firstOf ls = t) := by
  cases ls with
  | nil => rw [Head.isAt, show h.token.terminal = .finish from hat, firstOf]
  | cons l ls => rw [Head.isAt, hat.1, firstOf]

theorem isMark {m : Mark} (hat : h.At (.mark m :: ls)) : h.isMark m = true :=
  (hat.isAt _).trans (decide_eq_true rfl)

theorem isWord {k : Keyword} (hat : h.At (.word k :: ls)) : h.isWord k = true :=
  (hat.isAt _).trans (decide_eq_true rfl)

/-- What is not among the terminals that may follow does not come next. -/
theorem ne_true {follow : List Terminal} (hat : h.At ls) (hfollow : firstOf ls ∈ follow) {t : Terminal}
    (ht : t ∉ follow) : ¬ h.isAt t = true := by
  rw [hat.isAt, decide_eq_true_iff]
  rintro rfl
  exact ht hfollow

theorem not_mark {follow : List Terminal} (hat : h.At ls) (hfollow : firstOf ls ∈ follow) (m : Mark)
    (hm : .mark m ∉ follow) : ¬ h.isMark m = true :=
  hat.ne_true hfollow hm

theorem not_word {follow : List Terminal} (hat : h.At ls) (hfollow : firstOf ls ∈ follow) (k : Keyword)
    (hk : .keyword k ∉ follow) : ¬ h.isWord k = true :=
  hat.ne_true hfollow hk

theorem find?_word {β : Type} {k : Keyword} (hat : h.At (.word k :: ls)) (table : List (Keyword × β)) :
    (table.find? fun e => h.isWord e.1) = table.find? fun e => decide (k = e.1) := by
  congr 1
  funext e
  refine (hat.isAt _).trans (decide_eq_decide.2 ?_)
  exact ⟨fun heq => Terminal.keyword.inj heq, fun heq => congrArg Terminal.keyword heq⟩

theorem find?_eq_none {β : Type} {follow : List Terminal} (hat : h.At ls) (hfollow : firstOf ls ∈ follow)
    {table : List (Keyword × β)} (hnone : ∀ k ∈ table.map Prod.fst, .keyword k ∉ follow) :
    (table.find? fun e => h.isWord e.1) = none :=
  List.find?_eq_none.2 fun e he => hat.not_word hfollow e.1 (hnone _ (List.mem_map_of_mem he))

theorem take {l : Lexeme} (hat : h.At (l :: ls)) (after : List Terminal)
    (hfits : firstOf ls ∈ Terminal.finish :: after) :
    ∃ h', take l.terminal after h = .ok (h.token, h') ∧ h'.At ls := by
  obtain ⟨h', hpass, hrest⟩ := hat.pass after hfits
  have hhere : h.isAt l.terminal = true := (hat.isAt _).trans (decide_eq_true rfl)
  refine ⟨h', ?_, hrest⟩
  rw [Text.take, if_pos hhere, hpass]
  rfl

theorem takeMark {m : Mark} (hat : h.At (.mark m :: ls)) (after : List Terminal)
    (hfits : firstOf ls ∈ Terminal.finish :: after) :
    ∃ h', takeMark m after h = .ok (h.token, h') ∧ h'.At ls :=
  hat.take after hfits

theorem takeWord {k : Keyword} (hat : h.At (.word k :: ls)) (after : List Terminal)
    (hfits : firstOf ls ∈ Terminal.finish :: after) :
    ∃ h', takeWord k after h = .ok (h.token, h') ∧ h'.At ls :=
  hat.take after hfits

end Head.At

theorem step_ok {α β : Type} {x : Except ReadError α} {next : α → Except ReadError β} {a : α} {b : β}
    (h : x = .ok a) (hnext : next a = .ok b) : (x >>= next) = .ok b :=
  bind_eq_ok.2 ⟨a, h, hnext⟩

theorem first_mark (m : Mark) (ls : List Lexeme) : firstOf (.mark m :: ls) ∈ only m := List.mem_singleton_self _

theorem first_word (k : Keyword) (ls : List Lexeme) : firstOf (.word k :: ls) ∈ words [k] :=
  List.mem_singleton_self _

theorem fits_word {k : Keyword} {ls : List Lexeme} {expected : List Terminal} (h : .keyword k ∈ expected) :
    firstOf (.word k :: ls) ∈ Terminal.finish :: expected :=
  List.mem_cons_of_mem _ h

theorem fits_mark {m : Mark} {ls : List Lexeme} {expected : List Terminal} (h : .mark m ∈ expected) :
    firstOf (.mark m :: ls) ∈ Terminal.finish :: expected :=
  List.mem_cons_of_mem _ h

def BeginsWith (starts : List Terminal) (ls : List Lexeme) : Prop := ∀ rest, firstOf (ls ++ rest) ∈ starts

theorem BeginsWith.fits {starts expected : List Terminal} {ls : List Lexeme} (h : BeginsWith starts ls)
    (hsub : starts ⊆ expected) (rest : List Lexeme) : firstOf (ls ++ rest) ∈ Terminal.finish :: expected :=
  List.mem_cons_of_mem _ (hsub (h rest))

theorem BeginsWith.length_pos {starts : List Terminal} {ls : List Lexeme} (h : BeginsWith starts ls)
    (hfinish : .finish ∉ starts) : 0 < ls.length := by
  refine List.length_pos_iff.2 fun hnil => hfinish ?_
  have hfirst := h []
  rwa [hnil] at hfirst

/-- What is left of the fuel after a step suffices for a phrase and for what follows it. -/
theorem BeginsWith.fuel {starts : List Terminal} {ls ls' : List Lexeme} (h : BeginsWith starts ls)
    (hfinish : .finish ∉ starts) {fuel : ℕ} (hfuel : (ls ++ ls').length < fuel + 1) :
    ls.length ≤ fuel ∧ ls'.length < fuel := by
  have hpos : 0 < ls.length := h.length_pos hfinish
  rw [List.length_append] at hfuel
  omega

theorem Head.At.isWord_of_begins {h : Head} {k : Keyword} {ls rest : List Lexeme} (hat : h.At (ls ++ rest))
    (hls : BeginsWith (words [k]) ls) : h.isWord k = true :=
  (hat.isAt _).trans (decide_eq_true (List.mem_singleton.1 (hls rest)))

theorem Each.begins {α : Type} {writes : α → List Lexeme → Prop} {starts follow : List Terminal} {as : List α}
    {ls rest : List Lexeme} (h : Each writes as ls) (hwrites : ∀ {a ls}, writes a ls → BeginsWith starts ls)
    (hrest : firstOf rest ∈ follow) : firstOf (ls ++ rest) ∈ starts ++ follow := by
  cases h with
  | nil => exact List.mem_append_right _ hrest
  | cons h _ =>
    rw [List.append_assoc]
    exact List.mem_append_left _ (hwrites h _)

theorem WritesName.begins {s : String} {ls : List Lexeme} (h : WritesName s ls) : BeginsWith aName ls := by
  cases h
  exact fun _ => List.mem_singleton_self _

theorem WritesNumber.begins {n : Numeral} {ls : List Lexeme} (h : WritesNumber n ls) : BeginsWith aNumber ls := by
  cases h
  exact fun _ => List.mem_singleton_self _

theorem After.begins {α : Type} {m : Mark} {writes : α → List Lexeme → Prop} {a : α} {ls : List Lexeme}
    (h : After m writes a ls) : BeginsWith (only m) ls := by
  cases h
  exact fun _ => List.mem_singleton_self _

theorem WritesType.begins {t : TypeExpr} {ls : List Lexeme} (h : WritesType t ls) : BeginsWith type ls := by
  intro rest
  cases h with
  | named h => exact (by decide : aName ⊆ type) (h.begins rest)
  | pointer | shared | «mutable» => simp [firstOf, Lexeme.terminal, type]

theorem WritesAttribute.begins {a : TypeAttribute} {ls : List Lexeme} (h : WritesAttribute a ls) :
    BeginsWith attribute_ ls := by
  intro rest
  cases h <;> simp [firstOf, Lexeme.terminal, attribute_, words]

theorem WritesField.begins {f : FieldDecl} {ls : List Lexeme} (h : WritesField f ls) : BeginsWith aName ls := by
  obtain ⟨hname, -⟩ := h
  intro rest
  rw [List.append_assoc]
  exact hname.begins _

theorem WritesPlace.begins {p : PlaceExpr} {ls : List Lexeme} (h : WritesPlace p ls) : BeginsWith aName ls := by
  obtain ⟨hname, -⟩ := h
  intro rest
  rw [List.append_assoc]
  exact hname.begins _

theorem WritesParam.begins {p : Parameter} {ls : List Lexeme} (h : WritesParam p ls) : BeginsWith aName ls := by
  obtain ⟨_, _, hname, -⟩ := h
  intro rest
  rw [List.append_assoc]
  exact hname.begins _

theorem WritesTarget.begins {t : TargetExpr} {ls : List Lexeme} (h : WritesTarget t ls) : BeginsWith target ls := by
  intro rest
  cases h <;> simp [firstOf, Lexeme.terminal, target, words]

/-- The words that a statement may begin with. -/
def statementWords : List Terminal :=
  words [.decl, .read, .write, .addr, .move, .goto, .onTrue, .onFalse, .back, .skip, .jump, .ret]

theorem WritesStatement.begins {s : Statement} {ls : List Lexeme} (h : WritesStatement s ls) :
    BeginsWith statementWords ls := by
  intro rest
  cases h with
  | site h => cases h <;> simp [firstOf, Lexeme.terminal, statementWords, words]
  | edge word => cases word <;> simp [firstOf, Lexeme.terminal, statementWords, words, EdgeWord.word]
  | jump | ret => simp [firstOf, Lexeme.terminal, statementWords, words]

def memberWords : List Terminal := words [.block, .scope, .fn]

theorem WritesBlock.begins {b : BlockDecl} {ls : List Lexeme} (h : WritesBlock b ls) :
    BeginsWith (words [.block]) ls := by
  cases h
  exact fun _ => List.mem_singleton_self _

theorem WritesScope.begins {s : ScopeDecl} {ls : List Lexeme} (h : WritesScope s ls) :
    BeginsWith (words [.scope]) ls := by
  cases h
  exact fun _ => List.mem_singleton_self _

theorem WritesFunction.begins {f : FunctionDecl} {ls : List Lexeme} (h : WritesFunction f ls) :
    BeginsWith (words [.fn]) ls := by
  cases h
  exact fun _ => List.mem_singleton_self _

theorem WritesMembers.begins {body : Members} {ls rest : List Lexeme} (h : WritesMembers body ls)
    {follow : List Terminal} (hrest : firstOf rest ∈ follow) : firstOf (ls ++ rest) ∈ memberWords ++ follow := by
  cases h with
  | nil => exact List.mem_append_right _ hrest
  | block h =>
    rw [List.append_assoc]
    exact List.mem_append_left _ ((by decide : words [.block] ⊆ memberWords) (h.begins _))
  | scope h =>
    rw [List.append_assoc]
    exact List.mem_append_left _ ((by decide : words [.scope] ⊆ memberWords) (h.begins _))
  | nested h =>
    rw [List.append_assoc]
    exact List.mem_append_left _ ((by decide : words [.fn] ⊆ memberWords) (h.begins _))

theorem WritesDeclaration.begins_type {name : Name} {isScalar : Bool} {as : List TypeAttribute} {span : Span}
    {ls : List Lexeme} (h : WritesDeclaration (.type name isScalar as span) ls) :
    BeginsWith (words [.type]) ls := by
  cases h
  exact fun _ => List.mem_singleton_self _

theorem WritesDeclaration.begins_struct {name : Name} {as : List TypeAttribute} {fields : List FieldDecl}
    {span : Span} {ls : List Lexeme} (h : WritesDeclaration (.struct name as fields span) ls) :
    BeginsWith (words [.struct]) ls := by
  cases h
  exact fun _ => List.mem_singleton_self _

theorem WritesDeclaration.begins_function {f : FunctionDecl} {ls : List Lexeme}
    (h : WritesDeclaration (.function f) ls) : BeginsWith (words [.fn]) ls := by
  cases h with
  | function hf => exact hf.begins

theorem WritesDeclaration.begins {d : Declaration} {ls : List Lexeme} (h : WritesDeclaration d ls) :
    BeginsWith item ls := by
  intro rest
  cases d with
  | type => exact (by decide : words [.type] ⊆ item) (h.begins_type rest)
  | struct => exact (by decide : words [.struct] ⊆ item) (h.begins_struct rest)
  | function => exact (by decide : words [.fn] ⊆ item) (h.begins_function rest)

theorem fits_failMark (fails : Bool) {rest : List Lexeme} {follow : List Terminal}
    (hrest : firstOf rest ∈ follow) (hsub : follow ⊆ .finish :: afterMoveWord) :
    firstOf (failMark fails ++ rest) ∈ Terminal.finish :: afterMoveWord := by
  cases fails with
  | false => exact hsub hrest
  | true => exact fits_mark (by decide)

end MovePlan.Text
