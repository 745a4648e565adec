import Sexpr.Proofs.Exchange
import Sexpr.Proofs.Pulling
import Sexpr.Proofs.Relocation
import Sexpr.Proofs.Rereading

/-! # Texts behind one another

Blanks set a text off from the text before. Behind a text that is read, another one is read as it is
by itself, only further on and with the forms of the first text before its own, as long as there is
room for the nodes of both. A text that is refused is refused in the same way whatever follows it,
unless it ends too early or in a string without closing mark.
-/

namespace Sexpr

open Form (listTree listSize)
open Lexeme (Closed SetOff)

theorem setOff_of_isBlank {w : Bytes} (hw : IsBlank w) (hne : w ≠ []) (s : Bytes) :
    SetOff (w ++ s) := by
  cases w with
  | nil => exact absurd rfl hne
  | cons b w =>
    intro c hc
    cases hc
    have hb := (isBlank_cons.1 hw).1
    simp [Byte.isSymbolic, hb]

theorem setOff_append {w s : Bytes} (hw : IsBlank w) (hs : SetOff s) : SetOff (w ++ s) := by
  by_cases hne : w = []
  · rwa [hne]
  · exact setOff_of_isBlank hw hne s

namespace Arena

/-- Values of one arena are equal to values of another one, one by one. -/
def EqualAll (a : Arena) (xs : List Ref) (b : Arena) (ys : List Ref) : Prop :=
  List.Forall₂ (fun x y => a.equal x b y = .ok true) xs ys

variable {a b : Arena} {xs ys : List Ref} {ts : List Tree}

theorem equalAll_of_unfolds (hxs : List.Forall₂ a.Unfolds xs ts)
    (hys : List.Forall₂ b.Unfolds ys ts) : a.EqualAll xs b ys := by
  induction hxs generalizing ys with
  | nil =>
    cases hys
    exact .nil
  | cons hx _ ih =>
    cases hys with
    | cons hy hys =>
      apply List.Forall₂.cons _ (ih hys)
      rw [equal_eq hx hy, decide_eq_true rfl]

end Arena

namespace Token

variable {x w : Bytes}

theorem signature_comp_shift (n : Nat) : signature ∘ shift n = signature := rfl

theorem all_joined (hclosed : ∀ t ∈ all x, Closed t.kind t.text) (hw : IsBlank w) (hne : w ≠ [])
    (y : Bytes) : all (x ++ (w ++ y)) = all x ++ (all y).map (shift (x.length + w.length)) := by
  have hx : Lexes x 0 (all x) := Lexes.iff_eq_all.2 rfl
  have hy : Lexes y 0 (all y) := Lexes.iff_eq_all.2 rfl
  have hshift := hy.shift (x.length + w.length)
  rw [← Nat.add_assoc] at hshift
  exact Lexes.iff_eq_all.1 (hx.append hclosed (setOff_of_isBlank hw hne y)
    (lexes_of_blank hw hshift))

theorem stream_joined (hclosed : ∀ t ∈ all x, Closed t.kind t.text) (hw : IsBlank w) (hne : w ≠ [])
    (y : Bytes) :
    stream (x ++ (w ++ y)) = all x ++ (stream y).map (shift (x.length + w.length)) := by
  have heof : eof (x ++ (w ++ y)) = shift (x.length + w.length) (eof y) := by
    simp only [eof, shift, List.length_append, Token.mk.injEq, true_and]
    omega
  rw [stream, all_joined hclosed hw hne, heof, stream, List.map_append, List.append_assoc]
  rfl

end Token

section Joining

variable {x y w : Bytes} {d : Nat} {forms more : List Form} {o : Outline}

theorem closed_of_read (h : (Outline.top []).read d (Token.all x) = .ok o) :
    ∀ t ∈ Token.all x, Closed t.kind t.text := fun t ht =>
  Lexeme.closed_of_ne_invalid ((Outline.tokens_read h).2 t ht).kind_ne_invalid t.text

theorem read_joined (hx : (Outline.top []).read d (Token.all x) = .ok (.top forms))
    (hy : (Outline.top []).read d (Token.all y) = .ok (.top more)) (hw : IsBlank w) (hne : w ≠ []) :
    ∃ more', (Outline.top []).read d (Token.all (x ++ (w ++ y))) = .ok (.top (forms ++ more')) ∧
      listTree more = listTree more' ∧ listSize more = listSize more' := by
  have hsig : (Token.all y).map Token.signature =
      ((Token.all y).map (Token.shift (x.length + w.length))).map Token.signature := by
    rw [List.map_map, Token.signature_comp_shift]
  rcases Outline.read_of_signature hsig hy with ⟨more', hmore', htree⟩
  refine ⟨more', ?_, htree, Outline.listSize_eq_of_read hy hmore' htree⟩
  rcases Outline.read_eq_top_iff.1 hmore' with ⟨htokens, hok, hdepth⟩
  have hplace := (Outline.leads_placeAll d more' (.top forms) trivial (htokens ▸ hok)).1 hdepth
  rw [Outline.placeAll_top, htokens] at hplace
  rw [Token.all_joined (closed_of_read hx) hw hne, Outline.read_append, hx]
  exact hplace

/-- A run that fails before the end of the text does so whatever follows. -/
theorem Parser.run_of_failure {eof : Token} {ts : List Token} {s : Stack} {a : Arena}
    {blame : Blame} (h : (run d eof ts s a).result = .error (.failure blame))
    (hcause : blame.cause ≠ .endOfInput) : ∃ before t later, ts = before ++ t :: later ∧
      (run d eof ts s a).pulled = before ++ [t] ∧
      ∀ other us, run d other (before ++ t :: us) s a = run d eof ts s a := by
  induction ts generalizing s a with
  | nil =>
    rw [run, Stack.finish] at h
    split at h <;> cases h
    exact absurd rfl hcause
  | cons t ts ih =>
    cases hstep : s.step d t a with
    | error halt b =>
      rw [run_of_error hstep]
      exact ⟨[], t, ts, rfl, rfl, fun other us => run_of_error hstep⟩
    | ok next b =>
      rw [run_of_ok hstep] at h ⊢
      rcases ih h with ⟨before, u, later, rfl, hpulled, hsame⟩
      refine ⟨t :: before, u, later, rfl, congrArg (t :: ·) hpulled, fun other us => ?_⟩
      rw [List.cons_append, run_of_ok hstep, hsame other us]

/-- What completes a form is no string that is left open. -/
theorem Form.CompletedFrom.closed {t u : Token} {before : List Token}
    (h : Form.CompletedFrom t (before ++ [u])) : Closed u.kind u.text := by
  rcases h with ⟨front, form, htokens, _⟩
  rcases List.eq_nil_or_concat form.tokens with hnil | ⟨init, last, hlast⟩
  · exact absurd hnil form.tokens_ne_nil
  · rw [hlast, List.concat_eq_append, ← List.append_assoc] at htokens
    cases (List.append_inj' htokens rfl).2
    have hu : u ∈ form.tokens := by simp [hlast]
    exact Lexeme.closed_of_ne_invalid (form.kind_ne_invalid u hu) u.text

theorem Blame.locate_append {blame : Blame} (h : blame.token.offset ≤ x.length) (other : Bytes) :
    Blame.locate (x ++ other) blame = Blame.locate x blame := by
  simp only [Blame.locate, Position.ofOffset, List.take_append_of_le_length h]

/-- A text is refused in the same way whatever follows behind blanks, if the token that is refused
is not the end of the text and no string without closing mark. -/
theorem parse_of_refused_front {a : Arena} {e : ParseFailure}
    (h : (parse x a d).result = .error (.failure e)) (hcause : e.cause ≠ .endOfInput)
    (hclosed : ∀ t ∈ Token.all x, t.offset = e.offset → Closed t.kind t.text)
    {other : Bytes} (hother : SetOff other) :
    (parse (x ++ other) a d).result = .error (.failure e) := by
  rcases result_parse_eq_failure_iff.1 h with ⟨blame, hrun, rfl⟩
  rcases Parser.run_of_failure hrun hcause with ⟨before, t, later, hall, hpulled, hsame⟩
  have hrecent := ((Outline.Framed.top []).pulled_run (Token.eof x) (Token.all x) a).2.2 blame hrun
  rw [hpulled, Outline.tokens, Form.listTokens, List.nil_append] at hrecent
  have hlexes : Lexes x 0 (before ++ t :: later) := Lexes.iff_eq_all.2 hall
  have ht : Closed t.kind t.text := by
    rcases hrecent with ⟨front, hfront⟩ | ⟨_, hcompleted⟩
    · cases (List.append_inj' hfront rfl).2
      exact hclosed _ (by simp [hall]) rfl
    · exact hcompleted.closed
  have hoffset : blame.token.offset ≤ x.length := by
    rcases hrecent.exists_late with ⟨early, late, hbefore, _⟩
    have hmem : blame.token ∈ before ++ t :: later := by
      rw [List.append_cons]
      exact List.mem_append_left _ (hbefore ▸ by simp)
    have hbounds := (hlexes.offset_bounds hmem).2
    omega
  rcases hlexes.exists_append ht hother with ⟨later', hjoined⟩
  apply result_parse_eq_failure_iff.2
  refine ⟨blame, ?_, Blame.locate_append hoffset other⟩
  rw [Lexes.iff_eq_all.1 hjoined, hsame]
  exact hrun

theorem parse_of_shift {u v : Bytes} {n : Nat} {a : Arena} {e : ParseFailure}
    (hall : Token.all v = (Token.all u).map (Token.shift n))
    (heof : Token.eof v = (Token.eof u).shift n)
    (h : (parse u a d).result = .error (.failure e)) :
    ∃ e', (parse v a d).result = .error (.failure e') ∧ e'.cause = e.cause ∧ e'.text = e.text ∧
      e'.offset = n + e.offset := by
  have hfresh : (parse u a.fresh d).result = .error (.failure e) := by
    have habove := (parse_above u a d).1
    rw [h] at habove
    generalize (parse u a.fresh d).result = r at habove ⊢
    generalize hr : Except.error (Halt.failure e) = r' at habove
    cases habove with
    | ok => cases hr
    | error c ht =>
      subst ht
      rfl
  have hshift : List.Forall₂ (fun t t' => t' = Token.shift n t) (Token.all u) (Token.all v) := by
    rw [hall, List.forall₂_map_right_iff, List.forall₂_same]
    exact fun _ _ => rfl
  have hsig (t t' : Token) (ht : t' = Token.shift n t) : t.signature = t'.signature := by
    rw [ht]
    rfl
  have halike := (parse_alike hsig hshift heof a d).1
  rw [hfresh] at halike
  generalize (parse v a d).result = r' at halike ⊢
  generalize hr : Except.error (Halt.failure e) = r at halike
  cases halike with
  | ok => cases hr
  | error c ht =>
    subst ht
    cases hr
    exact ⟨_, rfl, rfl, rfl, Nat.add_comm _ _⟩

/-- What is read by itself is read behind forms that were read before, for only the shape of the
outline matters. -/
theorem read_behind {before : List Token}
    (hforms : (Outline.top []).read d (Token.all x) = .ok (.top forms))
    (hread : (Outline.top []).read d before = .ok o) (n : Nat) :
    ∃ o', (Outline.top []).read d (Token.all x ++ before.map (Token.shift n)) = .ok o' ∧
      o.shape = o'.shape ∧ o'.size = listSize forms + o.size := by
  have hsig : before.map Token.signature = (before.map (Token.shift n)).map Token.signature := by
    rw [List.map_map, Token.signature_comp_shift]
  have htop : (Outline.top []).shape = (Outline.top forms).shape := rfl
  rcases Outline.read_of_shape hread htop hsig with ⟨o', hread', hshape⟩
  refine ⟨o', ?_, hshape, Outline.size_of_shape hread hread' hshape hsig⟩
  rw [Outline.read_append, hforms]
  exact hread'

theorem parse_of_refuses_behind {before after : List Token} {t : Token} {c : Cause}
    (hforms : (Outline.top []).read d (Token.all x) = .ok (.top forms))
    (hs : Token.stream y = before ++ t :: after) (hread : (Outline.top []).read d before = .ok o)
    (hrefuses : o.Refuses d t c) (hw : IsBlank w) (hne : w ≠ [])
    (hroom : listSize forms + o.size ≤ Arena.mostNodes) :
    (parse (x ++ (w ++ y)) {} d).result = .error (.failure
      (Blame.locate (x ++ (w ++ y)) ⟨c, t.shift (x.length + w.length)⟩)) := by
  have hstream := Token.stream_joined (closed_of_read hforms) hw hne y
  rw [hs, List.map_append, List.map_cons, ← List.append_assoc (Token.all x)] at hstream
  rcases read_behind hforms hread (x.length + w.length) with ⟨o', hwhole, hshape, hsize⟩
  rw [← hsize, ← Arena.hasRoom_empty] at hroom
  have hshift : t.signature = (t.shift (x.length + w.length)).signature := rfl
  rw [parse_of_refuses hstream hwhole (hrefuses.of_shape hshape hshift) hroom]

/-- Only a text that takes up a whole arena is refused for lack of memory. -/
theorem size_of_outOfMemory {e : ParseFailure} (h : (parse y {} d).result = .error (.failure e))
    (hcause : e.cause = .outOfMemory) : (parse y {} d).arena.size = Arena.mostNodes := by
  rcases parse_leaves (Arena.inLimit_new none) y d with ⟨⟨⟨nodes, hgrown⟩, _⟩, _, _, hfull⟩
  rcases hfull _ h with ⟨_, he, hfull⟩
  cases he
  rw [← hfull hcause, hgrown, Arena.capacity_extend, Arena.capacity_of_unlimited rfl]

theorem parse_of_refused_back {r : Ref} {e : ParseFailure} (hx : (parse x {} d).result = .ok r)
    (hy : (parse y {} d).result = .error (.failure e)) (hw : IsBlank w) (hne : w ≠ [])
    (hroom : (parse x {} d).arena.size + (parse y {} d).arena.size ≤ Arena.mostNodes) :
    ∃ e', (parse (x ++ (w ++ y)) {} d).result = .error (.failure e') ∧ e'.cause = e.cause ∧
      e'.text = e.text ∧ e'.offset = x.length + w.length + e.offset := by
  rcases parse_eq_ok_iff.1 hx with ⟨forms, hforms, hfrontRoom, _⟩
  have hfront : (parse x {} d).arena.size = listSize forms :=
    (size_parse hforms hfrontRoom).trans (Nat.zero_add _)
  cases forms with
  | nil =>
    have hnone : Token.all x = [] := (Outline.tokens_read hforms).1.symm
    apply parse_of_shift _ _ hy
    · rw [Token.all_joined (closed_of_read hforms) hw hne, hnone, List.nil_append]
    · simp only [Token.eof, Token.shift, List.length_append, Token.mk.injEq, true_and]
      omega
  | cons form forms =>
    rcases exists_refuses hy with ⟨e', he', hcause, _⟩ |
      ⟨before, t, after, o, c, hs, hread, hbackRoom, hrefuses, hblame, _⟩
    · cases he'
      have hback := size_of_outOfMemory hy hcause
      rw [listSize] at hfront
      omega
    · cases hblame
      have hback : (parse y {} d).arena.size = o.size := by
        rw [parse_of_refuses hs hread hrefuses hbackRoom, Arena.size_extend, Outline.length_nodes]
        exact Nat.zero_add _
      rw [hfront, hback] at hroom
      exact ⟨_, parse_of_refuses_behind hforms hs hread hrefuses hw hne hroom, rfl, rfl,
        Nat.add_comm t.offset _⟩

/-- Some tokens of a text were read for all nodes that a parse of it leaves. -/
theorem exists_read_size (y : Bytes) (d : Nat) : ∃ before after o,
    Token.all y = before ++ after ∧ (Outline.top []).read d before = .ok o ∧
      (parse y {} d).arena.size ≤ o.size := by
  rcases parse_leaves (Arena.inLimit_new none) y d with ⟨⟨⟨nodes, hgrown⟩, hin⟩, _⟩
  have hle : (parse y {} d).arena.size ≤ Arena.mostNodes :=
    (hin (Arena.inLimit_new none)).trans (Arena.capacity_le_mostNodes _)
  cases hread : (Outline.top []).read d (Token.all y) with
  | error halt =>
    rcases Outline.read_eq_error hread with ⟨before, t, after, o, hall, hbefore, hstep⟩
    refine ⟨before, t :: after, o, hall, hbefore, ?_⟩
    by_cases hroom : ({} : Arena).HasRoom o.size
    · rw [parse_of_refusal hall hbefore hstep hroom, Arena.size_extend, Outline.length_nodes]
      exact Nat.le_of_eq (Nat.zero_add _)
    · rw [Arena.hasRoom_empty] at hroom
      omega
  | ok o =>
    refine ⟨Token.all y, [], o, (List.append_nil _).symm, hread, ?_⟩
    by_cases hroom : ({} : Arena).HasRoom o.size
    · rw [parse_of_read hread hroom, Arena.size_extend, Outline.length_nodes]
      exact Nat.le_of_eq (Nat.zero_add _)
    · rw [Arena.hasRoom_empty] at hroom
      omega

/-- Two texts whose nodes do not fit into one arena are refused for lack of memory. -/
theorem parse_of_lack {r : Ref} (hx : (parse x {} d).result = .ok r) (hw : IsBlank w) (hne : w ≠ [])
    (hlack : Arena.mostNodes < (parse x {} d).arena.size + (parse y {} d).arena.size) :
    ∃ e, (parse (x ++ (w ++ y)) {} d).result = .error (.failure e) ∧ e.cause = .outOfMemory := by
  rcases parse_eq_ok_iff.1 hx with ⟨forms, hforms, hfrontRoom, _⟩
  rcases exists_read_size y d with ⟨before, after, o, hall, hread, hle⟩
  rcases read_behind hforms hread (x.length + w.length) with ⟨o', hwhole, _, hsize⟩
  have hjoined := Token.all_joined (closed_of_read hforms) hw hne y
  rw [hall, List.map_append, ← List.append_assoc (Token.all x)] at hjoined
  apply parse_lacks hjoined hwhole
  rw [Arena.hasRoom_empty, hsize]
  have hfront : (parse x {} d).arena.size = listSize forms :=
    (size_parse hforms hfrontRoom).trans (Nat.zero_add _)
  omega

/-- A text is parsed behind another one, with blanks between them, as it is parsed by itself, if an
arena can hold the nodes of both. If both are parsed, the forms of the first text are followed by
those of the second, and there are as many nodes as both texts need. If only the second fails, the
failure is the same, but further on. Where an arena cannot hold the nodes of both, the first text is
parsed and the memory runs out in the second. If the first fails, other than by its end or by a
string without closing mark, the failure is the same, whatever the second needs. -/
theorem parse_joined (x y : Bytes) {w : Bytes} (hw : IsBlank w) (hne : w ≠ []) (maxDepth : Nat) :
    let front := parse x {} maxDepth
    let back := parse y {} maxDepth
    let joined := parse (x ++ w ++ y) {} maxDepth
    (front.arena.size + back.arena.size ≤ Arena.mostNodes →
      (∀ r s, front.result = .ok r → back.result = .ok s →
        ∃ q rs ss rs' ss', joined.result = .ok q ∧ joined.arena.items q = .ok (rs' ++ ss') ∧
          front.arena.items r = .ok rs ∧ front.arena.EqualAll rs joined.arena rs' ∧
          back.arena.items s = .ok ss ∧ back.arena.EqualAll ss joined.arena ss' ∧
          joined.arena.size = front.arena.size + back.arena.size) ∧
      ∀ r e, front.result = .ok r → back.result = .error (.failure e) →
        ∃ e', joined.result = .error (.failure e') ∧ e'.cause = e.cause ∧ e'.text = e.text ∧
          e'.offset = x.length + w.length + e.offset) ∧
    (Arena.mostNodes < front.arena.size + back.arena.size → ∀ r, front.result = .ok r →
      ∃ e', joined.result = .error (.failure e') ∧ e'.cause = .outOfMemory) ∧
    ∀ e, front.result = .error (.failure e) → e.cause ≠ .endOfInput →
      (∀ t ∈ Token.all x, t.offset = e.offset → Closed t.kind t.text) →
        joined.result = .error (.failure e) := by
  rw [List.append_assoc]
  refine ⟨fun hnodes => ⟨?_, ?_⟩, fun hlack r hr => parse_of_lack hr hw hne hlack, ?_⟩
  · intro r s hr hs
    rcases parse_eq_ok_iff.1 hr with ⟨forms, hforms, hfrontRoom, rfl⟩
    rcases parse_eq_ok_iff.1 hs with ⟨more, hmore, hbackRoom, rfl⟩
    rcases read_joined hforms hmore hw hne with ⟨more', hjoined, htree, hsize⟩
    have hfrontSize := (size_parse hforms hfrontRoom).trans (Nat.zero_add _)
    have hbackSize := (size_parse hmore hbackRoom).trans (Nat.zero_add _)
    have hroom : ({} : Arena).HasRoom (listSize (forms ++ more')) := by
      rwa [Arena.hasRoom_empty, Form.listSize_append, ← hsize, ← hfrontSize, ← hbackSize]
    have hfront := unfolds_parse hforms hfrontRoom
    have hback := unfolds_parse hmore hbackRoom
    have hwhole := unfolds_parse hjoined hroom
    rw [Form.listTree_eq] at hfront hwhole
    rw [htree, Form.listTree_eq] at hback
    rw [List.map_append] at hwhole
    rcases Arena.items_eq hfront with ⟨rs, hrs, hrs'⟩
    rcases Arena.items_eq hback with ⟨ss, hss, hss'⟩
    rcases Arena.items_eq hwhole with ⟨qs, hqs, hqs'⟩
    rw [Tree.elements_ofList] at hrs' hss' hqs'
    refine ⟨_, rs, ss, qs.take (forms.map Form.tree).length, qs.drop (forms.map Form.tree).length,
      parse_eq_ok_iff.2 ⟨_, hjoined, hroom, rfl⟩, ?_, hrs, ?_, hss, ?_, ?_⟩
    · rw [List.take_append_drop]
      exact hqs
    · exact Arena.equalAll_of_unfolds hrs' (List.forall₂_take_append _ _ _ hqs')
    · exact Arena.equalAll_of_unfolds hss' (List.forall₂_drop_append _ _ _ hqs')
    · rw [hfrontSize, hbackSize, hsize, ← Form.listSize_append]
      exact (size_parse hjoined hroom).trans (Nat.zero_add _)
  · intro r e hr hs
    exact parse_of_refused_back hr hs hw hne hnodes
  · intro e he hcause hclosed
    exact parse_of_refused_front he hcause hclosed (setOff_of_isBlank hw hne y)

/-- A symbol in front of a quoted one and of a parenthesis, and a parenthesis in front of a string
that is closed only by the text behind it. -/
theorem parse_joined_seams :
    (∃ q x y, (parse [97, 32, 39, 98] {} 1).result = .ok q ∧
      (parse [97, 32, 39, 98] {} 1).arena.items q = .ok [x, y] ∧
      (parse [97] {} 1).arena.equal ⟨1⟩ (parse [97, 32, 39, 98] {} 1).arena x = .ok true ∧
      (parse [39, 98] {} 1).arena.equal ⟨4⟩ (parse [97, 32, 39, 98] {} 1).arena y = .ok true ∧
      (parse [97, 32, 39, 98] {} 1).arena.size = 7) ∧
    (∃ e, (parse [97, 32, 41] {} 1).result = .error (.failure e) ∧ e.cause = .unexpectedToken ∧
      e.text = Utf8.decodeLossy [41] ∧ e.offset = 2) ∧
    (parse [41, 34, 32, 34] {} 1).result =
      .error (.failure ⟨.unexpectedToken, Utf8.decodeLossy [41], 0, ⟨0, 0⟩⟩) := by
  have hw : IsBlank [Byte.space] := by decide
  have hne : [Byte.space] ≠ [] := List.cons_ne_nil _ _
  have hsymbol : parse [97] {} 1 =
      ⟨.ok ⟨2⟩, ⟨#[.symbol "a", .pair ⟨1⟩ Ref.nil], none⟩, Token.stream [97]⟩ := by
    have hall : Token.all [97] = [⟨.symbol, [97], 0⟩] :=
      Lexes.iff_eq_all.1 (.token rfl rfl .done)
    rw [parse, Token.stream, hall]
    rfl
  refine ⟨?_, ?_, ?_⟩
  · have hquote : parse [39, 98] {} 1 =
        ⟨.ok ⟨5⟩, ⟨#[.symbol "b", .symbol "quote", .pair ⟨1⟩ Ref.nil, .pair ⟨2⟩ ⟨3⟩,
          .pair ⟨4⟩ Ref.nil], none⟩, Token.stream [39, 98]⟩ := by
      have hall : Token.all [39, 98] = [⟨.quote, [39], 0⟩, ⟨.symbol, [98], 1⟩] :=
        Lexes.iff_eq_all.1 (.token rfl rfl (.token rfl rfl .done))
      rw [parse, Token.stream, hall]
      rfl
    have hok := ((parse_joined [97] [39, 98] hw hne 1).1 (by rw [hsymbol, hquote]; decide)).1
      ⟨2⟩ ⟨5⟩ (by rw [hsymbol]) (by rw [hquote])
    rw [hsymbol, hquote] at hok ⊢
    rcases hok with ⟨q, rs, ss, rs', ss', hq, hitems, hrs, hfront, hss, hback, hsize⟩
    cases hrs
    cases hss
    rcases List.forall₂_cons_left_iff.1 hfront with ⟨x, _, hx, hnil, rfl⟩
    cases hnil
    rcases List.forall₂_cons_left_iff.1 hback with ⟨y, _, hy, hnil, rfl⟩
    cases hnil
    exact ⟨q, x, y, hq, hitems, hx, hy, hsize⟩
  · have hclosing : parse [41] {} 1 =
        ⟨.error (.failure ⟨.unexpectedToken, Utf8.decodeLossy [41], 0, ⟨0, 0⟩⟩), {},
          [⟨.rightParen, [41], 0⟩]⟩ := by
      have hall : Token.all [41] = [⟨.rightParen, [41], 0⟩] :=
        Lexes.iff_eq_all.1 (.token rfl rfl .done)
      rw [parse, hall]
      rfl
    exact ((parse_joined [97] [41] hw hne 1).1 (by rw [hsymbol, hclosing]; decide)).2
      ⟨2⟩ _ (by rw [hsymbol]) (by rw [hclosing])
  · have hall : Token.all [41, 34] = [⟨.rightParen, [41], 0⟩, ⟨.invalid, [34], 1⟩] :=
      Lexes.iff_eq_all.1 (.token rfl rfl (.token rfl rfl .done))
    have hopen : (parse [41, 34] {} 1).result =
        .error (.failure ⟨.unexpectedToken, Utf8.decodeLossy [41], 0, ⟨0, 0⟩⟩) := by
      rw [parse, hall]
      rfl
    apply (parse_joined [41, 34] [34] hw hne 1).2.2 _ hopen (by decide)
    rw [hall]
    simp [Closed]

end Joining

end Sexpr
