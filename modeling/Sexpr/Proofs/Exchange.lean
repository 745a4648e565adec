import Sexpr.Proofs.Refusal

/-! # Forms with the same trees

Reading goes on in the same way behind forms that stand for the same trees. So a text is read into
forms with the same trees if its tokens only stand elsewhere, or if one of its forms is exchanged
for another one with the same tree.
-/

namespace Sexpr

open Form (listTree listSize)

namespace Outline

/-- The same lists and quotes are open, and forms in the same places stand for the same trees. -/
inductive SameTrees : Outline → Outline → Prop
  | top {forms forms'} (h : forms.map Form.tree = forms'.map Form.tree) :
    SameTrees (.top forms) (.top forms')
  | list {opening opening' items items' outer outer'}
      (h : items.map Form.tree = items'.map Form.tree) (houter : SameTrees outer outer') :
    SameTrees (.list opening items outer) (.list opening' items' outer')
  | quote {mark mark' outer outer'} (houter : SameTrees outer outer') :
    SameTrees (.quote mark outer) (.quote mark' outer')

namespace SameTrees

variable {d : Nat} {o o' next : Outline} {form form' : Form} {forms : List Form} {t t' : Token}
  {ts ts' : List Token}

theorem refl (o : Outline) : o.SameTrees o := by
  induction o with
  | top forms => exact .top rfl
  | list opening items outer ih => exact .list rfl ih
  | quote mark outer ih => exact .quote ih

theorem level_eq (h : o.SameTrees o') : o.level = o'.level := by
  induction h with
  | top h => rfl
  | list h _ ih => simp [level, ih]
  | quote _ ih => simp [level, ih]

theorem place (h : o.SameTrees o') (htree : form.tree = form'.tree) :
    (o.place form).SameTrees (o'.place form') := by
  induction h generalizing form form' with
  | top h =>
    apply SameTrees.top
    simp [h, htree]
  | list h houter _ =>
    apply SameTrees.list _ houter
    simp [h, htree]
  | quote _ ih =>
    apply ih
    rw [Form.tree, Form.tree, htree]

theorem enter {inner inner' : Outline} (h : o.SameTrees o') (hinner : inner.SameTrees inner')
    (henter : o.enter d t inner = .ok next) :
    ∃ next', o'.enter d t' inner' = .ok next' ∧ next.SameTrees next' := by
  rw [enter_eq_ok_iff] at henter
  rcases henter with ⟨hlevel, rfl⟩
  exact ⟨inner', enter_eq_ok_iff.2 ⟨h.level_eq ▸ hlevel, rfl⟩, hinner⟩

theorem close {closing : Terminal .rightParen} (closing' : Terminal .rightParen)
    (h : o.SameTrees o') (hclose : o.close closing = .ok next) :
    ∃ next', o'.close closing' = .ok next' ∧ next.SameTrees next' := by
  cases h with
  | list h houter =>
    cases hclose
    refine ⟨_, rfl, houter.place ?_⟩
    rw [Form.tree, Form.tree, Form.listTree_eq, Form.listTree_eq, h]
  | _ => cases hclose

theorem step (h : o.SameTrees o') (hsig : t.signature = t'.signature)
    (hstep : o.step d t = .ok next) :
    ∃ next', o'.step d t' = .ok next' ∧ next.SameTrees next' := by
  have hrole' := Token.role_of_signature hsig
  cases hrole : t.role with
  | error halt =>
    rw [step_of_error hrole] at hstep
    cases hstep
  | ok role =>
    rw [hrole] at hrole'
    cases role with
    | atom node =>
      rw [step_of_atom hrole] at hstep
      cases hstep
      refine ⟨_, step_of_atom hrole', h.place ?_⟩
      rw [Form.tree, Form.tree, Form.node_of_role hrole, Form.node_of_role hrole']
    | opening =>
      rw [step_of_opening hrole] at hstep
      rw [step_of_opening hrole']
      exact h.enter (.list rfl h) hstep
    | quoting =>
      rw [step_of_quoting hrole] at hstep
      rw [step_of_quoting hrole']
      exact h.enter (.quote h) hstep
    | closing =>
      rw [step_of_closing hrole] at hstep
      rw [step_of_closing hrole']
      exact h.close _ hstep

theorem read (h : o.SameTrees o') (hsig : ts.map Token.signature = ts'.map Token.signature)
    (hread : o.read d ts = .ok next) :
    ∃ next', o'.read d ts' = .ok next' ∧ next.SameTrees next' := by
  induction ts generalizing o o' ts' with
  | nil =>
    cases hread
    rw [List.map_nil, eq_comm, List.map_eq_nil_iff] at hsig
    subst hsig
    exact ⟨o', rfl, h⟩
  | cons t ts ih =>
    rw [List.map_cons, eq_comm, List.map_eq_cons_iff] at hsig
    rcases hsig with ⟨t', us, rfl, ht, hus⟩
    rw [read_cons] at hread
    cases hstep : o.step d t with
    | error halt =>
      rw [hstep] at hread
      cases hread
    | ok first =>
      rw [hstep] at hread
      rcases h.step ht.symm hstep with ⟨first', hstep', hfirst⟩
      rw [read_cons, hstep']
      exact ih hfirst hus.symm hread

theorem exists_of_top (h : (Outline.top forms).SameTrees o') :
    ∃ forms', o' = .top forms' ∧ listTree forms = listTree forms' := by
  cases h with
  | top h => exact ⟨_, rfl, by rw [Form.listTree_eq, Form.listTree_eq, h]⟩

end SameTrees

variable {d : Nat} {form form' : Form} {forms : List Form} {ts ts' before after : List Token}

/-- The same tokens in other places are read into forms with the same trees. -/
theorem read_of_signature (hsig : ts.map Token.signature = ts'.map Token.signature)
    (h : (top []).read d ts = .ok (top forms)) :
    ∃ forms', (top []).read d ts' = .ok (top forms') ∧ listTree forms = listTree forms' := by
  rcases (SameTrees.refl (top [])).read hsig h with ⟨_, hread, hsame⟩
  rcases hsame.exists_of_top with ⟨forms', rfl, htree⟩
  exact ⟨forms', hread, htree⟩

theorem listSize_eq_of_read {forms' : List Form} {d' : Nat}
    (h : (top []).read d ts = .ok (top forms)) (h' : (top []).read d' ts' = .ok (top forms'))
    (htree : listTree forms = listTree forms') : listSize forms = listSize forms' := by
  rcases read_eq_top_iff.1 h with ⟨rfl, hok, _⟩
  rcases read_eq_top_iff.1 h' with ⟨rfl, hok', _⟩
  rw [← Form.size_listTree forms hok, ← Form.size_listTree forms' hok', htree]

/-- The tokens of a form can be exchanged for those of another one with the same tree. -/
theorem read_of_exchange (htree : form.tree = form'.tree)
    (hok : ∀ t ∈ form'.tokens, t.Acceptable)
    (h : (top []).read d (before ++ (form.tokens ++ after)) = .ok (top forms)) :
    ∃ forms', (top []).read d (before ++ (form'.tokens ++ after)) = .ok (top forms') ∧
      listTree forms = listTree forms' := by
  rw [read_append] at h
  cases hbefore : (top []).read d before with
  | error halt =>
    rw [hbefore] at h
    cases h
  | ok o =>
    rw [hbefore] at h
    change o.read d (form.tokens ++ after) = _ at h
    have hok₀ : ∀ t ∈ form.tokens, t.Acceptable := fun t ht =>
      (tokens_read h).2 t (List.mem_append_left after ht)
    have hdepth : form'.depth = form.depth := by
      rw [← Form.depth_tree form hok₀, htree, Form.depth_tree form' hok]
    have hleads := leads_place d form o hok₀
    have hlevels : form.depth ≤ d - o.level := by
      by_contra hdeep
      rcases hleads.2 (Nat.not_le.1 hdeep) with ⟨t, ht⟩
      rw [read_append, ht] at h
      cases h
    have hleads' := (leads_place d form' o hok).1 (hdepth ▸ hlevels)
    rw [read_append, hleads.1 hlevels] at h
    have hplace := (SameTrees.refl o).place htree
    rcases hplace.read rfl h with ⟨_, hafter, hsame⟩
    rcases hsame.exists_of_top with ⟨forms', rfl, hforms⟩
    refine ⟨forms', ?_, hforms⟩
    rw [read_append, hbefore]
    change o.read d (form'.tokens ++ after) = _
    rw [read_append, hleads']
    exact hafter

end Outline

end Sexpr
