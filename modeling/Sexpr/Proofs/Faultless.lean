import Sexpr.Proofs.Indexing
import Sexpr.Proofs.Limit
import Sexpr.Proofs.Refusal
import Sexpr.Proofs.Relocation

/-! # Branches that are never taken

A parse checks some things that always hold: that a string token has two quotation marks, that a
symbol token is text, and that the last cell of a list under construction has no successor yet. It
reads the text by indices that always lie in it. So it never halts with a fault, whatever the arena
holds, and it calls a token invalid only if the scanner does.
-/

namespace Sexpr

namespace Token

variable {t : Token}

theorem Scanned.kind_of_role (h : t.Scanned)
    (hrole : t.role = .error (.failure ⟨.invalidToken, t⟩)) : t.kind = .invalid := by
  cases hk : t.kind with
  | invalid => rfl
  | endOfInput => exact absurd hk h.kind_ne_endOfInput
  | integer =>
    simp only [role, hk] at hrole
    split at hrole <;> cases hrole
  | string =>
    rcases h.string hk with ⟨_, _, hok⟩
    cases hok.symm.trans hrole
  | symbol =>
    rcases h.symbol hk with ⟨_, _, _, hok⟩
    cases hok.symm.trans hrole
  | _ => simp [role, hk] at hrole

theorem Scanned.slice_string (h : t.Scanned) (hk : t.kind = .string) :
    2 ≤ t.text.length ∧
      Indexed.slice t.text 1 (t.text.length - 1) = .ok t.text.tail.dropLast := by
  rcases h.string hk with ⟨body, htext, _⟩
  have hlength : t.text.length = 1 + body.length + 1 := by
    simp [htext]
    omega
  have hdrop : t.text.drop 1 = body ++ [Byte.quotation] := by simp [htext]
  have hbody : t.text.tail.dropLast = body := by simp [htext]
  refine ⟨by omega, ?_⟩
  rw [hbody, hlength, Nat.add_sub_cancel]
  exact Indexed.slice_eq (by omega) hdrop

theorem Scanned.space_lt (h : t.Scanned) : ∃ b s, t.text = b :: s ∧ Byte.space < b := by
  rcases h with ⟨b, s, rest, hb, hs⟩
  have happend := Lexeme.append_of_scan hs
  cases htext : t.text with
  | nil => exact absurd htext (Lexeme.text_ne_nil_of_scan hs)
  | cons c text =>
    rw [htext] at happend
    cases happend
    refine ⟨b, text, rfl, ?_⟩
    simpa [Byte.isBlank] using hb

end Token

namespace Outline

variable {d : Nat} {o : Outline} {t : Token}

theorem kind_of_step (hscan : t.Scanned)
    (h : o.step d t = .error (.failure ⟨.invalidToken, t⟩)) : t.kind = .invalid := by
  cases hrole : t.role with
  | error halt =>
    rw [step_of_error hrole] at h
    cases h
    exact hscan.kind_of_role hrole
  | ok role =>
    cases role with
    | atom node =>
      rw [step_of_atom hrole] at h
      cases h
    | opening =>
      rw [step_of_opening hrole, enter] at h
      split at h <;> cases h
    | quoting =>
      rw [step_of_quoting hrole, enter] at h
      split at h <;> cases h
    | closing =>
      rw [step_of_closing hrole] at h
      cases o <;> cases h

end Outline

section Faultless

variable {input : Bytes} {a : Arena} {d : Nat} {e : ParseFailure}

theorem exists_invalid_of_parse (h : (parse input a d).result = .error (.failure e))
    (hcause : e.cause = .invalidToken) :
    ∃ t ∈ Token.all input, t.kind = .invalid ∧ e = Blame.locate input ⟨.invalidToken, t⟩ := by
  rcases exists_refuses h with
    ⟨_, hhalt, hmemory, _⟩ | ⟨before, t, after, o, c, hs, _, _, hrefuses, hblame, heof⟩
  · cases hhalt
    cases hmemory.symm.trans hcause
  cases hblame
  cases hcause
  rcases Token.stream_eq_append hs with ⟨hscan, later, hall⟩ | ⟨ht, _⟩
  · exact ⟨t, by simp [hall], Outline.kind_of_step hscan hrefuses.step, rfl⟩
  · cases heof.2 ht

/-- Nothing that an arena holds makes a parse halt with a fault. -/
theorem parse_ne_fault (f : Fault) : (parse input a d).result ≠ .error (.fault f) := by
  intro hfault
  have halike := (parse_above input a d).1
  rw [hfault] at halike
  generalize (parse input a.fresh d).result = r at halike
  cases halike

theorem size_le_size_parse (input : Bytes) (a : Arena) (d : Nat) :
    a.size ≤ (parse input a d).arena.size := by
  rw [(parse_above input a d).2.1, Arena.above, Arena.size_extend]
  exact Nat.le_add_right _ _

/-- A parse never halts with a fault, whatever the arena holds and however many nodes are allowed.
So the last cell of a list under construction is a pair without successor. No nodes are lost. The
body of a string token is a slice of it, symbol tokens are text, and only invalid tokens are blamed
for being invalid, of which none begins with a blank or control byte. Tokens are found by indices
that lie in the text, and escapes are decoded by indices that lie in the body, whatever its
bytes. -/
theorem parse_without_fault (input : Bytes) (a : Arena) (maxDepth : Nat) :
    (∀ f, (parse input a maxDepth).result ≠ .error (.fault f)) ∧
    a.size ≤ (parse input a maxDepth).arena.size ∧
    (∀ e, (parse input a maxDepth).result = .error (.failure e) → e.cause = .invalidToken →
      ∃ t ∈ Token.all input, t.kind = .invalid ∧ e = Blame.locate input ⟨.invalidToken, t⟩) ∧
    (∀ t ∈ Token.all input,
      (t.kind = .string → 2 ≤ t.text.length ∧
        Indexed.slice t.text 1 (t.text.length - 1) = .ok t.text.tail.dropLast) ∧
      (t.kind = .symbol → ∃ name, Utf8.decode? t.text = some name) ∧
      (t.kind = .invalid → ∃ b s, t.text = b :: s ∧ Byte.space < b)) ∧
    Indexed.skipWhile input Byte.isBlank 0 = .ok (Cursor.start input).offset ∧
    (∀ n, let c := Cursor.advance^[n] (Cursor.start input)
      c.offset ≤ input.length ∧ Indexed.remaining input c.offset = .ok c.rest ∧
        Indexed.nextToken input c.offset = .ok (c.token, c.advance.offset)) ∧
    ∀ body, Indexed.decodeFrom body 0 [] = .ok (Escape.decode body) := by
  refine ⟨parse_ne_fault, size_le_size_parse input a maxDepth,
    fun _ => exists_invalid_of_parse, ?_, ?_, ?_, Indexed.decodeFrom_eq⟩
  · intro t ht
    have hscan := Token.scanned_of_mem_all ht
    refine ⟨hscan.slice_string, ?_, fun _ => hscan.space_lt⟩
    intro hk
    exact Utf8.decode?_of_ascii (hscan.symbol hk).1.ascii
  · exact Cursor.skipWhile_eq_skipBlanks (Cursor.within_origin input)
  · intro n c
    have hwithin := Cursor.within_iterate input n
    exact ⟨hwithin.offset_le, Cursor.remaining_eq hwithin, Cursor.nextToken_eq hwithin⟩

/-- A broken arena, a string in front of a byte that begins no token, and an escape that ends too
early. -/
theorem parse_without_fault_broken_arena :
    (∃ t ∈ Token.all [34, 97, 34, 127], t.kind = .invalid ∧
      (parse [34, 97, 34, 127] ⟨#[.pair ⟨9⟩ ⟨1⟩], some 9⟩ 0).result =
        .error (.failure (Blame.locate [34, 97, 34, 127] ⟨.invalidToken, t⟩))) ∧
      Indexed.slice [34, 97, 34] 1 2 = .ok [97] ∧
      Indexed.decodeFrom [92, 120, 52] 0 [] = .ok [120, 52] := by
  have hall : Token.all [34, 97, 34, 127] =
      [⟨.string, [34, 97, 34], 0⟩, ⟨.invalid, [127], 3⟩] :=
    Lexes.iff_eq_all.1 (.token rfl rfl (.token rfl rfl .done))
  have hresult : (parse [34, 97, 34, 127] ⟨#[.pair ⟨9⟩ ⟨1⟩], some 9⟩ 0).result =
      .error (.failure ⟨.invalidToken, Utf8.decodeLossy [127], 3, ⟨0, 3⟩⟩) := by
    rw [parse, hall]
    rfl
  rcases parse_without_fault [34, 97, 34, 127] ⟨#[.pair ⟨9⟩ ⟨1⟩], some 9⟩ 0 with
    ⟨_, _, hinvalid, htokens, _, _, hdecode⟩
  refine ⟨?_, ?_, hdecode [92, 120, 52]⟩
  · rcases hinvalid _ hresult rfl with ⟨t, ht, hk, hblame⟩
    exact ⟨t, ht, hk, hresult.trans (by rw [hblame])⟩
  · have hmem : ⟨.string, [34, 97, 34], 0⟩ ∈ Token.all [34, 97, 34, 127] := by simp [hall]
    exact ((htokens _ hmem).1 rfl).2

end Faultless

end Sexpr
