import Sexpr.Proofs.Building

/-! # What a refusal depends on

Whether a token is refused depends only on what the token is and on the lists and quotes that are
open before it, and not on the forms that were read or on any token behind it. Where there is room
for its nodes, a text is not read exactly if one token of its stream is refused, and the end of the
text is a token like others.
-/

namespace Sexpr

/-- What a token is, wherever it stands. -/
def Token.signature (t : Token) : Token.Kind × Bytes := (t.kind, t.text)

theorem Token.role_of_signature {t u : Token} (h : t.signature = u.signature) :
    u.role = t.role.mapError (Halt.map fun b => ⟨b.cause, u⟩) := by
  rcases t with ⟨k, text, offset⟩
  rcases u with ⟨k', text', offset'⟩
  cases h
  cases k with
  | integer =>
    simp only [role]
    split <;> rfl
  | string =>
    simp only [role]
    split <;> rfl
  | symbol =>
    simp only [role]
    split <;> rfl
  | _ => rfl

theorem Form.tokenCost_of_signature {ts us : List Token}
    (h : ts.map Token.signature = us.map Token.signature) : tokenCost ts = tokenCost us := by
  have hcount (p : Token.Kind → Bool) : ts.countP (p ·.kind) = us.countP (p ·.kind) := by
    have hp := congrArg (List.countP (p ·.1)) h
    rwa [List.countP_map, List.countP_map] at hp
  rw [tokenCost, tokenCost, hcount, hcount (decide <| · = .leftParen),
    hcount (decide <| · = .quote)]

theorem Token.Scanned.role_eq_error {t : Token} (h : t.Scanned) {halt : Halt Blame}
    (hrole : t.role = .error halt) : ∃ c, halt = .failure ⟨c, t⟩ ∧ c ≠ .endOfInput := by
  cases hk : t.kind with
  | endOfInput => exact absurd hk h.kind_ne_endOfInput
  | invalid =>
    simp only [role, hk] at hrole
    cases hrole
    exact ⟨_, rfl, by decide⟩
  | integer =>
    simp only [role, hk] at hrole
    split at hrole
    · cases hrole
    · cases hrole
      exact ⟨_, rfl, by decide⟩
  | string =>
    rcases h.string hk with ⟨_, _, hok⟩
    cases hok.symm.trans hrole
  | symbol =>
    rcases h.symbol hk with ⟨_, _, _, hok⟩
    cases hok.symm.trans hrole
  | _ => simp [role, hk] at hrole

namespace Outline

/-- The open lists (true) and quotes (false), the innermost first. -/
def shape : Outline → List Bool
  | top _ => []
  | list _ _ outer => true :: outer.shape
  | quote _ outer => false :: outer.shape

variable {d : Nat} {o o' p : Outline} {t t' : Token} {ts ts' : List Token}

theorem length_shape (o : Outline) : o.shape.length = o.level := by
  induction o with
  | top forms => rfl
  | list opening items outer ih => simp [shape, level, ih]
  | quote mark outer ih => simp [shape, level, ih]

theorem pending_of_shape (h : o.shape = o'.shape) : o.pending = o'.pending := by
  induction o generalizing o' with
  | top forms => cases o' <;> simp_all [shape, pending]
  | list opening items outer ih =>
    cases o' with
    | list opening' items' outer' => exact congrArg (· + 1) (ih (List.cons.inj h).2)
    | _ => cases h
  | quote mark outer ih =>
    cases o' with
    | quote mark' outer' => exact congrArg (· + 3) (ih (List.cons.inj h).2)
    | _ => cases h

theorem shape_place (form : Form) (o : Outline) :
    (o.place form).shape = o.shape.dropWhile (· = false) := by
  induction o generalizing form with
  | top forms => rfl
  | list opening items outer ih => rfl
  | quote mark outer ih => exact ih _

theorem enter_of_shape {inner inner' : Outline} (hshape : o.shape = o'.shape)
    (hinner : inner.shape = inner'.shape) :
    (o'.enter d t' inner').map shape =
      ((o.enter d t inner).map shape).mapError (Halt.map fun b => ⟨b.cause, t'⟩) := by
  rw [enter, enter, ← length_shape, ← length_shape, hshape]
  split
  · exact congrArg Except.ok hinner.symm
  · rfl

theorem close_of_shape (hshape : o.shape = o'.shape) (closing closing' : Terminal .rightParen) :
    (o'.close closing').map shape =
      ((o.close closing).map shape).mapError (Halt.map fun b => ⟨b.cause, closing'.1⟩) := by
  cases o with
  | list opening items outer =>
    cases o' with
    | list opening' items' outer' =>
      have houter : outer.shape = outer'.shape := by simpa [shape] using hshape
      simp [close, shape_place, houter, Except.map, Except.mapError]
    | _ => simp [shape] at hshape
  | top forms =>
    cases o' with
    | top forms' => rfl
    | _ => simp [shape] at hshape
  | quote mark outer =>
    cases o' with
    | quote mark' outer' => rfl
    | _ => simp [shape] at hshape

/-- A step depends only on the shape of the outline and on what the token is. -/
theorem step_of_shape (hshape : o.shape = o'.shape) (hsig : t.signature = t'.signature) :
    (o'.step d t').map shape =
      ((o.step d t).map shape).mapError (Halt.map fun b => ⟨b.cause, t'⟩) := by
  have hrole := Token.role_of_signature hsig
  cases h : t.role with
  | error halt =>
    rw [h] at hrole
    rw [step_of_error h, step_of_error hrole]
    rfl
  | ok role =>
    rw [h] at hrole
    cases role with
    | atom node =>
      rw [step_of_atom h, step_of_atom hrole]
      simp [shape_place, hshape, Except.map, Except.mapError]
    | opening =>
      rw [step_of_opening h, step_of_opening hrole]
      exact enter_of_shape hshape (congrArg (true :: ·) hshape)
    | quoting =>
      rw [step_of_quoting h, step_of_quoting hrole]
      exact enter_of_shape hshape (congrArg (false :: ·) hshape)
    | closing =>
      rw [step_of_closing h, step_of_closing hrole]
      exact close_of_shape hshape _ _

theorem read_of_shape (h : o.read d ts = .ok p) (hshape : o.shape = o'.shape)
    (hsig : ts.map Token.signature = ts'.map Token.signature) :
    ∃ p', o'.read d ts' = .ok p' ∧ p.shape = p'.shape := by
  induction ts generalizing o o' ts' with
  | nil =>
    cases h
    rw [List.map_nil, eq_comm, List.map_eq_nil_iff] at hsig
    subst hsig
    exact ⟨o', rfl, hshape⟩
  | cons t ts ih =>
    rw [List.map_cons, eq_comm, List.map_eq_cons_iff] at hsig
    rcases hsig with ⟨t', us, rfl, ht, hus⟩
    have hstep := step_of_shape (d := d) hshape ht.symm
    rw [read_cons] at h
    cases hnext : o.step d t with
    | error halt =>
      rw [hnext] at h
      cases h
    | ok next =>
      rw [hnext] at h hstep
      cases hnext' : o'.step d t' with
      | error halt =>
        rw [hnext'] at hstep
        cases hstep
      | ok next' =>
        rw [hnext'] at hstep
        rw [read_cons, hnext']
        exact ih h (Except.ok.inj hstep).symm hus.symm

theorem size_of_shape {forms : List Form} (h : (top []).read d ts = .ok o)
    (h' : (top forms).read d ts' = .ok o') (hshape : o.shape = o'.shape)
    (hsig : ts.map Token.signature = ts'.map Token.signature) :
    o'.size = Form.listSize forms + o.size := by
  have hcost := o.size_add_pending
  have hcost' := o'.size_add_pending
  have hforms := Form.tokenCost_listTokens forms
  rw [(tokens_read h).1, Form.tokenCost_append, Form.tokenCost_of_signature hsig] at hcost
  rw [(tokens_read h').1, Form.tokenCost_append, ← pending_of_shape hshape] at hcost'
  simp only [tokens, Form.tokenCost_listTokens, Form.listSize] at hcost hcost'
  omega

/-- The token cannot be read, nor can the text end here if it is its end. -/
structure Refuses (d : Nat) (o : Outline) (t : Token) (c : Cause) : Prop where
  step : o.step d t = .error (.failure ⟨c, t⟩)
  isOpen : t.kind = .endOfInput → o.shape ≠ []

theorem Refuses.of_shape {c : Cause} (h : o.Refuses d t c) (hshape : o.shape = o'.shape)
    (hsig : t.signature = t'.signature) : o'.Refuses d t' c := by
  constructor
  · have hstep := step_of_shape (d := d) hshape hsig
    rw [h.step] at hstep
    cases hnext : o'.step d t' with
    | error halt =>
      rw [hnext] at hstep
      cases hstep
      rfl
    | ok next =>
      rw [hnext] at hstep
      cases hstep
  · intro hk
    rw [← hshape]
    apply h.isOpen
    rw [← hk]
    exact congrArg Prod.fst hsig

theorem step_eq_error {halt : Halt Blame} (hscan : t.Scanned) (h : o.step d t = .error halt) :
    ∃ c, halt = .failure ⟨c, t⟩ ∧ c ≠ .endOfInput := by
  cases hrole : t.role with
  | error halt' =>
    rw [step_of_error hrole] at h
    cases h
    exact hscan.role_eq_error hrole
  | ok role =>
    cases role with
    | atom node =>
      rw [step_of_atom hrole] at h
      cases h
    | opening =>
      rw [step_of_opening hrole, enter] at h
      split at h <;> cases h
      exact ⟨_, rfl, by decide⟩
    | quoting =>
      rw [step_of_quoting hrole, enter] at h
      split at h <;> cases h
      exact ⟨_, rfl, by decide⟩
    | closing =>
      rw [step_of_closing hrole] at h
      cases o with
      | list opening items outer => cases h
      | _ =>
        cases h
        exact ⟨_, rfl, by decide⟩

theorem refuses_eof_iff {input : Bytes} {c : Cause} :
    o.Refuses d (Token.eof input) c ↔ c = .endOfInput ∧ o.shape ≠ [] := by
  have hstep : o.step d (Token.eof input) = .error (.failure ⟨.endOfInput, Token.eof input⟩) :=
    step_of_error rfl
  constructor
  · intro h
    have heq := h.step
    rw [hstep] at heq
    cases heq
    exact ⟨rfl, h.isOpen rfl⟩
  · rintro ⟨rfl, hshape⟩
    exact ⟨hstep, fun _ => hshape⟩

theorem finish_of_shape (h : o.shape ≠ []) (base : Nat) (eof : Token) :
    o.finish base eof = .error (.failure ⟨.endOfInput, eof⟩) := by
  cases o with
  | top forms => exact absurd rfl h
  | _ => rfl

end Outline

theorem Token.stream_eq_append {input : Bytes} {before after : List Token} {t : Token}
    (h : stream input = before ++ t :: after) :
    (t.Scanned ∧ ∃ later, all input = before ++ t :: later) ∨
      (t = eof input ∧ all input = before) := by
  rcases List.eq_nil_or_concat after with rfl | ⟨later, last, rfl⟩
  · rw [stream] at h
    have hparts := List.append_inj' h rfl
    exact .inr ⟨(List.cons.inj hparts.2).1.symm, hparts.1⟩
  · rw [stream, List.concat_eq_append, ← List.cons_append, ← List.append_assoc] at h
    have hall := (List.append_inj' h rfl).1
    have hmem : t ∈ all input := by simp [hall]
    exact .inl ⟨scanned_of_mem_all hmem, later, hall⟩

theorem Token.stream_eq_append_of_signature {input : Bytes} {before : List Token} {t : Token}
    (h : ((stream input).take (before.length + 1)).map signature =
      (before ++ [t]).map signature) :
    ∃ before' t' after, stream input = before' ++ t' :: after ∧
      before.map signature = before'.map signature ∧ t.signature = t'.signature := by
  rw [List.map_append, List.map_eq_append_iff] at h
  rcases h with ⟨before', last, htake, hbefore, hlast⟩
  rw [List.map_singleton, List.map_eq_singleton_iff] at hlast
  rcases hlast with ⟨t', rfl, ht⟩
  refine ⟨before', t', (stream input).drop (before.length + 1), ?_, hbefore.symm, ht.symm⟩
  calc
    stream input = (stream input).take (before.length + 1) ++
        (stream input).drop (before.length + 1) := (List.take_append_drop _ _).symm
    _ = before' ++ t' :: (stream input).drop (before.length + 1) := by
      rw [htake, List.append_assoc]
      rfl

/-- Reading ends with a failure that tells of the token with a number, and it pulls no token behind
this one. -/
structure FailsAt (a : Arena) (d : Nat) (input : Bytes) (n : Nat) (e : ParseFailure) : Prop where
  result : (parse input a d).result = .error (.failure e)
  pulled : (parse input a d).pulled = (Token.stream input).take (n + 1)
  token : ∃ t, (Token.stream input)[n]? = some t ∧
    e.text = Utf8.decodeLossy t.text ∧ e.offset = t.offset
  position : e.position = Position.ofOffset input e.offset

section Refusal

open Outline

variable {a : Arena} {d : Nat} {input : Bytes} {o : Outline} {before after : List Token} {t : Token}
  {c : Cause}

theorem parse_of_refuses (hs : Token.stream input = before ++ t :: after)
    (hread : (top []).read d before = .ok o) (h : o.Refuses d t c) (hroom : a.HasRoom o.size) :
    parse input a d = ⟨.error (.failure (Blame.locate input ⟨c, t⟩)),
      a.extend (o.nodes a.size), before ++ [t]⟩ := by
  rcases Token.stream_eq_append hs with ⟨_, later, hall⟩ | ⟨rfl, hall⟩
  · rw [parse_of_refusal hall hread h.step hroom]
    rfl
  · rcases refuses_eof_iff.1 h with ⟨rfl, hshape⟩
    rw [parse_of_read (hall ▸ hread) hroom, finish_of_shape hshape, Token.stream, hall]
    rfl

theorem failsAt_of_refuses (hs : Token.stream input = before ++ t :: after)
    (hread : (top []).read d before = .ok o) (h : o.Refuses d t c) (hroom : a.HasRoom o.size) :
    FailsAt a d input before.length (Blame.locate input ⟨c, t⟩) := by
  have hparse := parse_of_refuses hs hread h hroom
  refine ⟨by rw [hparse], ?_, ⟨t, ?_, rfl, rfl⟩, rfl⟩
  · rw [hparse, hs, List.take_length_add_append]
    rfl
  · rw [hs]
    simp

/-- A text that is not read is refused at a token of its stream, or there is no room for the nodes
that its tokens cost. -/
theorem exists_refuses {halt : Halt ParseFailure} (h : (parse input a d).result = .error halt) :
    (∃ e, halt = .failure e ∧ e.cause = .outOfMemory ∧
      ¬ a.HasRoom (Form.tokenCost (Token.all input))) ∨
    ∃ before t after o c, Token.stream input = before ++ t :: after ∧
      (top []).read d before = .ok o ∧ a.HasRoom o.size ∧ o.Refuses d t c ∧
      halt = .failure (Blame.locate input ⟨c, t⟩) ∧ (c = .endOfInput ↔ t = Token.eof input) := by
  have hlacks {o : Outline} {ts us : List Token} (hall : Token.all input = ts ++ us)
      (hread : (top []).read d ts = .ok o) (hroom : ¬ a.HasRoom o.size) :
      ∃ e, halt = .failure e ∧ e.cause = .outOfMemory ∧
        ¬ a.HasRoom (Form.tokenCost (Token.all input)) := by
    rcases parse_lacks hall hread hroom with ⟨e, he, hcause⟩
    refine ⟨e, Except.error.inj (h.symm.trans he), hcause, fun hall' => hroom ?_⟩
    rw [hall] at hall'
    exact hall'.mono (size_le_tokenCost hread)
  cases hread : (top []).read d (Token.all input) with
  | error halt' =>
    rcases read_eq_error hread with ⟨before, t, after, o, hall, hbefore, hstep⟩
    by_cases hroom : a.HasRoom o.size
    · have hmem : t ∈ Token.all input := by simp [hall]
      have hscan := Token.scanned_of_mem_all hmem
      rcases step_eq_error hscan hstep with ⟨c, rfl, hc⟩
      rw [parse_of_refusal hall hbefore hstep hroom] at h
      cases h
      refine .inr ⟨before, t, after ++ [Token.eof input], o, c, ?_, hbefore, hroom, ⟨hstep, ?_⟩,
        rfl, ?_⟩
      · simp [Token.stream, hall]
      · exact fun hk => absurd hk hscan.kind_ne_endOfInput
      · apply iff_of_false hc
        rintro rfl
        exact hscan.kind_ne_endOfInput rfl
    · exact .inl (hlacks hall hbefore hroom)
  | ok o =>
    by_cases hroom : a.HasRoom o.size
    · rw [parse_of_read hread hroom] at h
      by_cases hshape : o.shape = []
      · cases o with
        | top forms => cases h
        | _ => cases hshape
      · rw [finish_of_shape hshape] at h
        cases h
        exact .inr ⟨Token.all input, Token.eof input, [], o, .endOfInput, rfl, hread, hroom,
          refuses_eof_iff.2 ⟨rfl, hshape⟩, rfl, iff_of_true rfl rfl⟩
    · exact .inl (hlacks (List.append_nil _).symm hread hroom)

end Refusal

end Sexpr
