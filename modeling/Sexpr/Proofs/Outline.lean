import Sexpr.Parser.Run
import Sexpr.Proofs.Layout

/-! # Texts read in part

A stack of the parser is determined by the forms that were read so far and the lists and quotes that
are open around the place where reading goes on. These forms change with a token in the same way in
which the stack does, and they also determine all nodes in the arena, as long as it has room for
them. So reading is followed on forms alone.
-/

namespace Sexpr

/-- Forms of a text up to some token: complete ones at the top level, then the lists and quotes that
are open, each with the forms that it has got. -/
inductive Outline
  | top (forms : List Form)
  | list (opening : Terminal .leftParen) (items : List Form) (outer : Outline)
  | quote (mark : Terminal .quote) (outer : Outline)

namespace Outline

def level : Outline → Nat
  | top _ => 0
  | list _ _ outer => outer.level + 1
  | quote _ outer => outer.level + 1

def tokens : Outline → List Token
  | top forms => Form.listTokens forms
  | list opening items outer => outer.tokens ++ opening.1 :: Form.listTokens items
  | quote mark outer => outer.tokens ++ [mark.1]

def place (form : Form) : Outline → Outline
  | top forms => top (forms ++ [form])
  | list opening items outer => list opening (items ++ [form]) outer
  | quote mark outer => outer.place (.quote mark form)

def enter (maxDepth : Nat) (t : Token) (o inner : Outline) : Except (Halt Blame) Outline :=
  if o.level < maxDepth then .ok inner else .error (.failure ⟨.nestingTooDeep, t⟩)

def close (closing : Terminal .rightParen) : Outline → Except (Halt Blame) Outline
  | list opening items outer => .ok (outer.place (.list opening items closing))
  | _ => .error (.failure ⟨.unexpectedToken, closing.1⟩)

def step (maxDepth : Nat) (o : Outline) (t : Token) : Except (Halt Blame) Outline :=
  match h : t.role with
  | .error halt => .error halt
  | .ok (.atom _) => .ok (o.place (.atom ⟨t, Token.suits_of_role h⟩))
  | .ok .opening => o.enter maxDepth t (.list ⟨t, Token.suits_of_role h⟩ [] o)
  | .ok .quoting => o.enter maxDepth t (.quote ⟨t, Token.suits_of_role h⟩ o)
  | .ok .closing => o.close ⟨t, Token.suits_of_role h⟩

def read (maxDepth : Nat) (o : Outline) (ts : List Token) : Except (Halt Blame) Outline :=
  ts.foldlM (step maxDepth) o

variable {d : Nat} {o o' inner : Outline} {t : Token} {ts us : List Token}

theorem step_of_error {halt : Halt Blame} (h : t.role = .error halt) :
    o.step d t = .error halt := by
  unfold step
  split <;> cases h.symm.trans ‹_›
  rfl

theorem step_of_atom {node : Node} (h : t.role = .ok (.atom node)) :
    o.step d t = .ok (o.place (.atom ⟨t, Token.suits_of_role h⟩)) := by
  unfold step
  split <;> cases h.symm.trans ‹_›
  rfl

theorem step_of_opening (h : t.role = .ok .opening) :
    o.step d t = o.enter d t (.list ⟨t, Token.suits_of_role h⟩ [] o) := by
  unfold step
  split <;> cases h.symm.trans ‹_›
  rfl

theorem step_of_quoting (h : t.role = .ok .quoting) :
    o.step d t = o.enter d t (.quote ⟨t, Token.suits_of_role h⟩ o) := by
  unfold step
  split <;> cases h.symm.trans ‹_›
  rfl

theorem step_of_closing (h : t.role = .ok .closing) :
    o.step d t = o.close ⟨t, Token.suits_of_role h⟩ := by
  unfold step
  split <;> cases h.symm.trans ‹_›
  rfl

theorem enter_eq_ok_iff : o.enter d t inner = .ok o' ↔ o.level < d ∧ inner = o' := by
  by_cases h : o.level < d <;> simp [enter, h]

theorem close_eq_ok {closing : Terminal .rightParen} (h : o.close closing = .ok o') :
    ∃ opening items outer, o = .list opening items outer ∧
      o' = outer.place (.list opening items closing) := by
  cases o with
  | list opening items outer =>
    cases h
    exact ⟨opening, items, outer, rfl, rfl⟩
  | _ => cases h

theorem read_cons : o.read d (t :: ts) = (o.step d t).bind (·.read d ts) := List.foldlM_cons

theorem read_append : o.read d (ts ++ us) = (o.read d ts).bind (·.read d us) :=
  List.foldlM_append

theorem read_eq_error {halt : Halt Blame} (h : o.read d ts = .error halt) :
    ∃ before t after next, ts = before ++ t :: after ∧ o.read d before = .ok next ∧
      next.step d t = .error halt := by
  induction ts generalizing o with
  | nil => cases h
  | cons t ts ih =>
    rw [read_cons] at h
    cases hstep : o.step d t with
    | error halt' =>
      rw [hstep] at h
      cases h
      exact ⟨[], t, ts, o, rfl, rfl, hstep⟩
    | ok first =>
      rw [hstep] at h
      rcases ih h with ⟨before, u, after, next, rfl, hread, hu⟩
      refine ⟨t :: before, u, after, next, rfl, ?_, hu⟩
      rw [read_cons, hstep]
      exact hread

theorem tokens_place (form : Form) (o : Outline) :
    (o.place form).tokens = o.tokens ++ form.tokens := by
  induction o generalizing form with
  | top forms => simp [place, tokens, Form.listTokens_append, Form.listTokens]
  | list opening items outer ih =>
    simp [place, tokens, Form.listTokens_append, Form.listTokens]
  | quote mark outer ih => simp [place, tokens, ih, Form.tokens]

theorem tokens_step (h : o.step d t = .ok o') : o'.tokens = o.tokens ++ [t] ∧ t.Acceptable := by
  cases hrole : t.role with
  | error halt =>
    rw [step_of_error hrole] at h
    cases h
  | ok role =>
    refine ⟨?_, role, hrole⟩
    cases role with
    | atom node =>
      rw [step_of_atom hrole] at h
      cases h
      rw [tokens_place, Form.tokens]
    | opening =>
      rw [step_of_opening hrole, enter_eq_ok_iff] at h
      simp [← h.2, tokens, Form.listTokens]
    | quoting =>
      rw [step_of_quoting hrole, enter_eq_ok_iff] at h
      simp [← h.2, tokens]
    | closing =>
      rw [step_of_closing hrole] at h
      rcases close_eq_ok h with ⟨opening, items, outer, rfl, rfl⟩
      simp [tokens_place, tokens, Form.tokens]

theorem tokens_read (h : o.read d ts = .ok o') :
    o'.tokens = o.tokens ++ ts ∧ ∀ t ∈ ts, t.Acceptable := by
  induction ts generalizing o with
  | nil =>
    cases h
    simp
  | cons t ts ih =>
    rw [read_cons] at h
    cases hstep : o.step d t with
    | error halt =>
      rw [hstep] at h
      cases h
    | ok next =>
      rw [hstep] at h
      have hhead := tokens_step hstep
      have htail := ih h
      rw [hhead.1, List.append_assoc] at htail
      exact ⟨htail.1, List.forall_mem_cons.2 ⟨hhead.2, htail.2⟩⟩

/-- Forms may stand behind one another here. -/
def IsRow : Outline → Prop
  | quote _ _ => False
  | _ => True

theorem isRow_place (form : Form) (o : Outline) : (o.place form).IsRow := by
  induction o generalizing form with
  | quote mark outer ih => exact ih _
  | _ => trivial

theorem level_place (form : Form) (h : o.IsRow) : (o.place form).level = o.level := by
  cases o with
  | quote mark outer => exact h.elim
  | _ => rfl

def placeAll (forms : List Form) (o : Outline) : Outline :=
  forms.foldl (fun o form => o.place form) o

theorem placeAll_top (forms more : List Form) :
    (top forms).placeAll more = top (forms ++ more) := by
  induction more generalizing forms with
  | nil => simp [placeAll]
  | cons form more ih =>
    rw [placeAll, List.foldl_cons]
    exact (ih (forms ++ [form])).trans (by simp)

theorem placeAll_list (opening : Terminal .leftParen) (items more : List Form) (outer : Outline) :
    (list opening items outer).placeAll more = list opening (items ++ more) outer := by
  induction more generalizing items with
  | nil => simp [placeAll]
  | cons form more ih =>
    rw [placeAll, List.foldl_cons]
    exact (ih (items ++ [form])).trans (by simp)

/-- Reading comes to an outline if the levels that are left suffice, and is too deep otherwise. -/
def Leads (d n : Nat) (o : Outline) (ts : List Token) (o' : Outline) : Prop :=
  (n ≤ d - o.level → o.read d ts = .ok o') ∧
    (d - o.level < n → ∃ t, o.read d ts = .error (.failure ⟨.nestingTooDeep, t⟩))

theorem Leads.nil (d : Nat) (o : Outline) : Leads d 0 o [] o :=
  ⟨fun _ => rfl, fun h => absurd h (Nat.not_lt_zero _)⟩

theorem Leads.of_step (h : o.step d t = .ok o') : Leads d 0 o [t] o' := by
  constructor
  · intro _
    rw [read_cons, h]
    rfl
  · intro hdeep
    exact absurd hdeep (Nat.not_lt_zero _)

theorem Leads.append {m n : Nat} {next : Outline} (h : Leads d m o ts next)
    (h' : Leads d n next us o') (hlevel : next.level = o.level) :
    Leads d (max m n) o (ts ++ us) o' := by
  rw [Leads, hlevel] at h'
  constructor
  · intro hn
    rw [read_append, h.1 (by omega)]
    exact h'.1 (by omega)
  · intro hn
    by_cases hm : m ≤ d - o.level
    · rcases h'.2 (by omega) with ⟨t, ht⟩
      refine ⟨t, ?_⟩
      rw [read_append, h.1 hm]
      exact ht
    · rcases h.2 (by omega) with ⟨t, ht⟩
      refine ⟨t, ?_⟩
      rw [read_append, ht]
      rfl

theorem Leads.of_enter {n : Nat} (hstep : o.step d t = o.enter d t inner)
    (hlevel : inner.level = o.level + 1) (h : Leads d n inner ts o') :
    Leads d (n + 1) o (t :: ts) o' := by
  rw [Leads, hlevel] at h
  rw [Leads, read_cons, hstep, enter]
  by_cases hroom : o.level < d
  · rw [if_pos hroom]
    exact ⟨fun hn => h.1 (by omega), fun hn => h.2 (by omega)⟩
  · rw [if_neg hroom]
    exact ⟨fun hn => by omega, fun _ => ⟨t, rfl⟩⟩

mutual

theorem leads_place (d : Nat) : ∀ (form : Form) (o : Outline),
    (∀ t ∈ form.tokens, t.Acceptable) → Leads d form.depth o form.tokens (o.place form)
  | .atom t, o, h =>
    .of_step (step_of_atom (Form.atom_of_acceptable (Form.forall_tokens_atom.1 h)).1)
  | .list opening forms closing, o, h => by
    have hok := (Form.forall_tokens_list.1 h).2.1
    have hforms := leads_placeAll d forms (.list opening [] o) trivial hok
    rw [placeAll_list, List.nil_append] at hforms
    have hclosing : Leads d 0 (.list opening forms o) [closing.1]
        (o.place (.list opening forms closing)) :=
      .of_step (step_of_closing (Token.role_rightParen closing.2))
    have hinner := hforms.append hclosing rfl
    rw [Nat.max_zero] at hinner
    exact hinner.of_enter (step_of_opening (Token.role_leftParen opening.2)) rfl
  | .quote mark form, o, h =>
    (leads_place d form (.quote mark o) (Form.forall_tokens_quote.1 h).2).of_enter
      (step_of_quoting (Token.role_quote mark.2)) rfl

theorem leads_placeAll (d : Nat) : ∀ (forms : List Form) (o : Outline), o.IsRow →
    (∀ t ∈ Form.listTokens forms, t.Acceptable) →
      Leads d (Form.listDepth forms) o (Form.listTokens forms) (o.placeAll forms)
  | [], o, _, _ => .nil d o
  | form :: forms, o, hrow, h => by
    have hparts := Form.forall_listTokens_cons.1 h
    have hform := leads_place d form o hparts.1
    have hforms := leads_placeAll d forms (o.place form) (isRow_place form o) hparts.2
    exact hform.append hforms (level_place form hrow)

end

/-- A text is read into forms if they are made of its tokens, each of which has a role, and are
not too deep. -/
theorem read_eq_top_iff {forms : List Form} : (top []).read d ts = .ok (top forms) ↔
    Form.listTokens forms = ts ∧ (∀ t ∈ ts, t.Acceptable) ∧ Form.listDepth forms ≤ d := by
  constructor
  · intro h
    have htokens : Form.listTokens forms = ts ∧ ∀ t ∈ ts, t.Acceptable := tokens_read h
    refine ⟨htokens.1, htokens.2, ?_⟩
    by_contra hdeep
    rcases htokens with ⟨rfl, hok⟩
    rcases (leads_placeAll d forms (top []) trivial hok).2 (Nat.not_le.1 hdeep) with ⟨t, ht⟩
    cases h.symm.trans ht
  · rintro ⟨rfl, hok, hdepth⟩
    have hread := (leads_placeAll d forms (top []) trivial hok).1 hdepth
    rwa [placeAll_top, List.nil_append] at hread

end Outline

end Sexpr
