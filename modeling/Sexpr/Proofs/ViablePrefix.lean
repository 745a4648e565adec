import Sexpr.Proofs.Refusal

/-! # The first token that cannot be read

A text that cannot be read is refused at the first token that makes it unreadable, unless the arena
lacks room for its nodes. The text before the token can be completed by a symbol, which ends all
quotes, and the parentheses that close all lists. No text that has the same tokens up to this one is
read, whatever follows.
-/

namespace Sexpr

namespace Outline

/-- Lists that are open. -/
def lists : Outline → Nat
  | top _ => 0
  | list _ _ outer => outer.lists + 1
  | quote _ outer => outer.lists

variable {d : Nat} {o : Outline} {ts : List Token}

theorem lists_place (form : Form) (o : Outline) : (o.place form).lists = o.lists := by
  induction o generalizing form with
  | quote mark outer ih => exact ih _
  | _ => rfl

theorem read_closing (hrow : o.IsRow) (hts : ∀ t ∈ ts, t.kind = .rightParen)
    (hlength : ts.length = o.lists) : ∃ forms, o.read d ts = .ok (top forms) := by
  induction ts generalizing o with
  | nil =>
    cases o with
    | top forms => exact ⟨forms, rfl⟩
    | list opening items outer => simp [lists] at hlength
    | quote mark outer => exact hrow.elim
  | cons t ts ih =>
    cases o with
    | top forms => simp [lists] at hlength
    | list opening items outer =>
      have hrole := Token.role_rightParen (hts t List.mem_cons_self)
      rw [read_cons, step_of_closing hrole]
      apply ih (isRow_place _ outer) fun u hu => hts u (List.mem_cons_of_mem _ hu)
      simpa [lists, lists_place] using hlength
    | quote mark outer => exact hrow.elim

end Outline

namespace Lexes

theorem closing (n offset : Nat) : ∃ ts : List Token, ts.length = n ∧
    (∀ t ∈ ts, t.kind = .rightParen) ∧ Lexes (List.replicate n Byte.rightParen) offset ts := by
  induction n generalizing offset with
  | zero => exact ⟨[], rfl, by simp, .done⟩
  | succ n ih =>
    rcases ih (offset + 1) with ⟨ts, hlength, hkind, hlexes⟩
    exact ⟨⟨.rightParen, [Byte.rightParen], offset⟩ :: ts, by simp [hlength],
      List.forall_mem_cons.2 ⟨rfl, hkind⟩, .token rfl rfl hlexes⟩

end Lexes

/-- A symbol and the parentheses that close a number of lists. -/
def completion (n : Nat) : Bytes := Byte.space :: 97 :: List.replicate n Byte.rightParen

theorem Lexes.completion (n offset : Nat) : ∃ (symbol : AtomToken) (ts : List Token),
    symbol.1.Acceptable ∧ ts.length = n ∧ (∀ t ∈ ts, t.kind = .rightParen) ∧
      Lexes (Sexpr.completion n) offset (symbol.1 :: ts) := by
  have hscan : Lexeme.scan [97] = ⟨.symbol, [97], []⟩ := rfl
  have hend : Lexeme.Ends .symbol (List.replicate n Byte.rightParen) := by
    intro b hb
    cases n with
    | zero => cases hb
    | succ n =>
      cases hb
      rfl
  rcases Lexes.closing n (offset + 1 + 1) with ⟨ts, hlength, hkind, hlexes⟩
  refine ⟨⟨⟨.symbol, [97], offset + 1⟩, rfl⟩, ts, ?_, hlength, hkind, .blank rfl (.token rfl
    (Lexeme.scan_append_of_ends hscan (Lexeme.closed_of_ne_invalid (by decide) _) hend) hlexes)⟩
  have hsymbol : Token.Scanned ⟨.symbol, [97], offset + 1⟩ := ⟨97, [], [], rfl, hscan⟩
  rcases hsymbol.symbol rfl with ⟨_, name, _, hrole⟩
  exact ⟨_, hrole⟩

theorem tokenCost_completion (symbol : AtomToken) {closing : List Token}
    (hkind : ∀ t ∈ closing, t.kind = .rightParen) : Form.tokenCost (symbol.1 :: closing) = 2 := by
  have hnone (p : Token.Kind → Bool) (hp : p .rightParen = false) :
      closing.countP (p ·.kind) = 0 := by
    rw [List.countP_eq_zero]
    intro t ht
    rw [hkind t ht, hp]
    exact Bool.false_ne_true
  have hclosing : Form.tokenCost closing = 0 := by
    rw [Form.tokenCost, hnone _ rfl, hnone (decide <| · = .leftParen) rfl,
      hnone (decide <| · = .quote) rfl]
  rw [← List.singleton_append, Form.tokenCost_append, hclosing]
  exact Form.tokenCost_tokens (.atom symbol)

theorem Lexes.take_offset {input : Bytes} {before after : List Token} {t : Token}
    (h : Token.stream input = before ++ t :: after) (hvalid : ∀ u ∈ before, u.kind ≠ .invalid) :
    Lexes (input.take t.offset) 0 before := by
  rcases Token.stream_eq_append h with ⟨_, later, hall⟩ | ⟨rfl, hall⟩
  · exact (Lexes.iff_eq_all.2 hall).take fun u hu => Lexeme.closed_of_ne_invalid (hvalid u hu) _
  · rw [Token.eof, List.take_length]
    exact Lexes.iff_eq_all.2 hall

/-- A text of which every token was read can be completed. -/
theorem parse_completion {a : Arena} {d : Nat} {input : Bytes} {ts : List Token} {o : Outline}
    (hlexes : Lexes input 0 ts) (hread : (Outline.top []).read d ts = .ok o)
    (hroom : a.HasRoom (Form.tokenCost ts + 2)) :
    ∃ r, (parse (input ++ completion o.lists) a d).result = .ok r := by
  rcases Lexes.completion o.lists (0 + input.length) with
    ⟨symbol, closing, hsymbol, hlength, hkind, hend⟩
  have hclosed : ∀ t ∈ ts, Lexeme.Closed t.kind t.text := fun t ht =>
    Lexeme.closed_of_ne_invalid ((Outline.tokens_read hread).2 t ht).kind_ne_invalid _
  have hsetOff : Lexeme.SetOff (completion o.lists) := by
    intro b hb
    cases hb
    rfl
  have hall := Lexes.iff_eq_all.1 (hlexes.append hclosed hsetOff hend)
  have hstep := Outline.step_of_atom (d := d) (o := o) (Form.atom_of_acceptable hsymbol).1
  rcases Outline.read_closing (d := d) (Outline.isRow_place (.atom symbol) o) hkind
    (hlength.trans (Outline.lists_place _ o).symm) with ⟨forms, hforms⟩
  have hwhole : (Outline.top []).read d (ts ++ symbol.1 :: closing) = .ok (.top forms) := by
    rw [Outline.read_append, hread]
    change o.read d (symbol.1 :: closing) = _
    rw [Outline.read_cons, hstep]
    exact hforms
  refine ⟨_, parse_eq_ok_iff.2 ⟨forms, hall ▸ hwhole, ?_, rfl⟩⟩
  rwa [← Form.tokenCost_listTokens, (Outline.read_eq_top_iff.1 hwhole).1, Form.tokenCost_append,
    tokenCost_completion symbol hkind]

/-- If there is room for the nodes that the tokens of a text cost, reading fails at the first token
that makes the text unreadable. The text before the token has a completion that is read, unless
there is no room for the two nodes that this needs. A text that agrees in all tokens up to this one
fails at it for the same cause and with the same text. The failure tells of the token and its place;
its text is empty exactly at the end of input. -/
theorem parse_fails_at_unreadable (input : Bytes) (a : Arena) (maxDepth : Nat)
    {halt : Halt ParseFailure} (h : (parse input a maxDepth).result = .error halt) :
    ∃ e, halt = .failure e ∧
      (e.cause = .outOfMemory ∧ ¬ a.HasRoom (Form.tokenCost (Token.all input)) ∨
      ∃ n, FailsAt a maxDepth input n e ∧
        (a.HasRoom (Form.tokenCost ((Token.stream input).take n) + 2) →
          ∃ s r, (parse (input.take e.offset ++ s) a maxDepth).result = .ok r) ∧
        (∀ other, ((Token.stream other).take (n + 1)).map Token.signature =
            ((Token.stream input).take (n + 1)).map Token.signature →
          ∃ e', FailsAt a maxDepth other n e' ∧ e'.cause = e.cause ∧ e'.text = e.text) ∧
        (e.text = "" ↔ e.cause = .endOfInput) ∧
        (e.cause = .endOfInput → e.offset = input.length)) := by
  rcases exists_refuses h with hlacks | ⟨before, t, after, o, c, hs, hread, hroom, href, rfl, hc⟩
  · rcases hlacks with ⟨e, rfl, hlacks⟩
    exact ⟨e, rfl, .inl hlacks⟩
  refine ⟨_, rfl, .inr ⟨before.length, failsAt_of_refuses hs hread href hroom, ?_, ?_, ?_, ?_⟩⟩
  · have hvalid : ∀ u ∈ before, u.kind ≠ .invalid := fun u hu =>
      ((Outline.tokens_read hread).2 u hu).kind_ne_invalid
    intro hcost
    rw [hs, List.take_left] at hcost
    exact ⟨_, parse_completion (Lexes.take_offset hs hvalid) hread hcost⟩
  · intro other hother
    rw [hs, List.take_length_add_append] at hother
    rcases Token.stream_eq_append_of_signature hother with
      ⟨before', t', after', hs', hbefore, ht⟩
    rcases Outline.read_of_shape hread rfl hbefore with ⟨o', hread', hshape⟩
    have hroom' : a.HasRoom o'.size := by
      rwa [Outline.size_of_shape hread hread' hshape hbefore, Form.listSize, Nat.zero_add]
    have hfails := failsAt_of_refuses hs' hread' (href.of_shape hshape ht) hroom'
    have hlength : before'.length = before.length := by
      simpa using (congrArg List.length hbefore).symm
    rw [hlength] at hfails
    exact ⟨_, hfails, rfl, congrArg (Utf8.decodeLossy ∘ Prod.snd) ht.symm⟩
  · rcases Token.stream_eq_append hs with ⟨hscan, _⟩ | ⟨rfl, _⟩
    · apply iff_of_false (Utf8.decodeLossy_ne_empty hscan.text_ne_nil)
      intro hend
      apply hscan.kind_ne_endOfInput
      rw [hc.1 hend]
      rfl
    · exact iff_of_true Utf8.decodeLossy_nil (hc.2 rfl)
  · intro hend
    rw [hc.1 hend]
    rfl

theorem parse_fails_at_parenthesis_behind_quote :
    (parse [40, 98, 32, 39, 41] {} 2).result =
        .error (.failure ⟨.unexpectedToken, ")", 4, ⟨0, 4⟩⟩) ∧
      ∃ s r, (parse ([40, 98, 32, 39] ++ s) {} 2).result = .ok r := by
  have hall : Token.all [40, 98, 32, 39, 41] =
      [⟨.leftParen, [40], 0⟩, ⟨.symbol, [98], 1⟩, ⟨.quote, [39], 3⟩, ⟨.rightParen, [41], 4⟩] :=
    Lexes.iff_eq_all.1 (.token rfl rfl (.token rfl rfl (.blank rfl
      (.token rfl rfl (.token rfl rfl .done)))))
  have hresult : (parse [40, 98, 32, 39, 41] {} 2).result =
      .error (.failure ⟨.unexpectedToken, ")", 4, ⟨0, 4⟩⟩) := by
    rw [parse, hall]
    rfl
  rcases parse_fails_at_unreadable [40, 98, 32, 39, 41] {} 2 hresult with ⟨e, he, hfails⟩
  cases he
  rcases hfails with ⟨hcause, _⟩ | ⟨n, hfails, hcompletion, _⟩
  · cases hcause
  · have hcost := Form.tokenCost_append ((Token.stream [40, 98, 32, 39, 41]).take n)
      ((Token.stream [40, 98, 32, 39, 41]).drop n)
    have hwhole : Form.tokenCost (Token.stream [40, 98, 32, 39, 41]) = 6 := by
      rw [Token.stream, hall]
      rfl
    rw [List.take_append_drop, hwhole] at hcost
    have hmost : 6 + 2 ≤ Arena.mostNodes := by decide
    exact ⟨hresult, hcompletion (Arena.hasRoom_empty.2 (by omega))⟩

end Sexpr
