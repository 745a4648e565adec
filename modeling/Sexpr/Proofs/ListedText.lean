import Mathlib.Data.List.DropRight
import Sexpr.Proofs.ShownPlaces
import Sexpr.Proofs.Spacing

/-! # Listings as texts

A listing without places is the text that was listed with other blanks: each token has a line of its
own, indented by blanks. So the lines above the summary have the same tokens as the text, and
parsing them comes to the same. A listing that ends early is the listing of the tokens before the
first one that cannot be listed.
-/

namespace Sexpr

namespace Utf8

theorem encode_append (s t : String) : encode (s ++ t) = encode s ++ encode t := by
  simp [encode]

theorem encode_ofList {cs : List Char} (h : ∀ c ∈ cs, c.utf8Size = 1) :
    encode (String.ofList cs) = cs.map fun c => c.val.toUInt8 := by
  induction cs with
  | nil => rfl
  | cons c cs ih =>
    obtain ⟨hc, hcs⟩ := List.forall_mem_cons.1 h
    have hfirst : encode (String.ofList [c]) = [c.val.toUInt8] := by
      rw [encode, String.toByteArray_ofList, List.utf8Encode_singleton,
        String.utf8EncodeChar_eq_singleton hc]
      rfl
    rw [← List.singleton_append, String.ofList_append, encode_append, hfirst, ih hcs,
      List.map_append, List.map_singleton]

theorem encode_blanks (n : Nat) :
    encode (String.ofList (List.replicate n ' ')) = List.replicate n Byte.space := by
  rw [encode_ofList fun c hc => List.eq_of_mem_replicate hc ▸ rfl, List.map_replicate]
  rfl

theorem digit_bounds {c : Char} (h : c.isDigit = true) : 48 ≤ c.val.toNat ∧ c.val.toNat ≤ 57 := by
  simp only [Char.isDigit, Bool.and_eq_true, decide_eq_true_eq, UInt32.le_iff_toNat_le,
    ge_iff_le] at h
  exact h

theorem newline_notMem_toString (n : Nat) : Byte.newline ∉ encode (toString n) := by
  have hbounds (c : Char) (hc : c ∈ Nat.toDigits 10 n) := digit_bounds
    (Nat.isDigit_of_mem_toDigits (by decide) (by decide) hc)
  have hsize (c : Char) (hc : c ∈ Nat.toDigits 10 n) : c.utf8Size = 1 := by
    rw [Char.utf8Size_eq_one_iff, UInt32.le_iff_toNat_le]
    exact (hbounds c hc).2.trans (by decide)
  rw [Nat.toString_eq_repr, Nat.repr_eq_ofList_toDigits, encode_ofList hsize, List.mem_map]
  rintro ⟨c, hc, hnewline⟩
  have hvalue : c.val.toNat % 256 = 10 := by
    rw [← UInt32.toNat_toUInt8, hnewline]
    rfl
  have hdigit := hbounds c hc
  omega

theorem newline_notMem_toString_int (n : Int) : Byte.newline ∉ encode (toString n) := by
  cases n with
  | ofNat n => exact newline_notMem_toString n
  | negSucc n =>
    change Byte.newline ∉ encode ("-" ++ toString (n + 1))
    rw [encode_append, List.mem_append, not_or]
    exact ⟨by decide, newline_notMem_toString (n + 1)⟩

end Utf8

theorem IsLexeme.ascii {k : Token.Kind} {text rest : Bytes} (h : IsLexeme k text rest)
    (hinvalid : k ≠ .invalid) (hstring : k ≠ .string) : ∀ b ∈ text, b < 0x80 := by
  cases h with
  | leftParen | rightParen | quote => exact List.forall_mem_singleton.2 (by decide)
  | integer hb hdigits _ =>
    have hascii : ∀ b : UInt8, b = Byte.minus ∨ Byte.isDigit b = true → b < 0x80 := by
      apply Byte.forall_of_fin
      decide +kernel
    exact List.forall_mem_cons.2 ⟨hascii _ hb, fun c hc => hascii c (.inr (hdigits c hc))⟩
  | string => exact absurd rfl hstring
  | symbol htext _ => exact htext.ascii
  | unclosed | invalid => exact absurd rfl hinvalid

namespace Token

variable {before : List Token} {t : Token} {n : Nat}

/-- Level on which a token is listed: the number of lists around it. A closing parenthesis is on the
level of the opening one that it matches. -/
inductive Level (before : List Token) (t : Token) : Nat → Prop
  | closing {early opening inner} (hk : t.kind = .rightParen)
      (hbefore : before = early ++ opening :: inner) (hopening : opening.kind = .leftParen)
      (hinner : Balanced inner) : Level before t (openLists early)
  | other (hk : t.kind ≠ .rightParen) : Level before t (openLists before)

/-- A token that cannot be listed: it is invalid, or it closes no list, or it is on too deep a
level. -/
inductive Unlistable (before : List Token) (t : Token) : Prop
  | obstructs (h : t.Obstructs before)
  | tooDeep {n : Nat} (h : t.Level before n) (hdeep : Listing.widest < n)

theorem Level.eq (h : t.Level before n) : n = t.kind.indentation (openLists before) := by
  cases h with
  | closing hk hbefore hopening hinner =>
    rw [hbefore, openLists, openLists, List.foldl_append, List.foldl_cons, hopening,
      hinner.foldl_listsBehind, hk]
    rfl
  | other hk =>
    cases hkind : t.kind with
    | rightParen => exact absurd hkind hk
    | _ => rfl

theorem level_of_not_obstructs (h : ¬ t.Obstructs before) :
    t.Level before (t.kind.indentation (openLists before)) := by
  by_cases hk : t.kind = .rightParen
  · obtain ⟨early, opening, inner, hbefore, hopening, hinner⟩ : HasOpening before := by
      by_contra hnone
      exact h (.inr ⟨hk, hnone⟩)
    have hlevel : t.Level before (openLists early) := .closing hk hbefore hopening hinner
    rwa [← hlevel.eq]
  · have hlevel : t.Level before (openLists before) := .other hk
    rwa [← hlevel.eq]

theorem unlistable_iff {positions : Bool} :
    t.Unlistable before ↔ ∃ obstacle, Listing.Stops ⟨true, positions⟩ before t obstacle := by
  constructor
  · intro h
    by_cases hobstructs : t.Obstructs before
    · exact ⟨_, .obstructs hobstructs⟩
    · cases h with
      | obstructs h => exact absurd h hobstructs
      | tooDeep hlevel hdeep => exact ⟨_, .tooDeep rfl hobstructs (hlevel.eq ▸ hdeep)⟩
  · rintro ⟨obstacle, hstops⟩
    cases hstops with
    | obstructs h => exact .obstructs h
    | tooDeep _ hclear hdeep => exact .tooDeep (level_of_not_obstructs hclear) hdeep

theorem Scanned.encode_shown (h : t.Scanned) (hk : t.kind ≠ .invalid)
    (hstring : t.kind = .string → (Utf8.decode? t.text).isSome) :
    Utf8.encode t.shown = t.text := by
  rw [shown, if_neg h.kind_ne_endOfInput]
  apply Utf8.encode_decodeLossy
  by_cases hs : t.kind = .string
  · exact hstring hs
  · obtain ⟨b, s, rest, hb, hscan⟩ := h
    exact Option.isSome_iff_exists.2
      (Utf8.decode?_of_ascii ((IsLexeme.of_scan hb hscan).ascii hk hs))

end Token

namespace Listing

open Token (openLists)

/-- Line of a token that is listed without its place. -/
def tokenLine (indentation : Nat) (t : Token) : Bytes :=
  List.replicate indentation Byte.space ++ Utf8.encode t.shown ++ [Byte.newline]

/-- Lines of tokens that stand behind some others. -/
def listed (before : List Token) : List Token → Bytes
  | [] => []
  | t :: ts => tokenLine (t.kind.indentation (openLists before)) t ++ listed (before ++ [t]) ts

def aboveLastLine (s : Bytes) : Bytes := s.dropLast.rdropWhile (· != Byte.newline)

variable {input : Bytes}

theorem encode_line (indentation : Nat) (p : Position) (t : Token) :
    Utf8.encode (Style.line ⟨true, false⟩ indentation p t) = tokenLine indentation t := by
  have hnothing : Utf8.encode "" = [] := rfl
  simp only [Style.line, Bool.false_eq_true, if_false, Utf8.encode_append, Utf8.encode_blanks,
    hnothing, List.append_nil]
  rfl

theorem encode_join_shown (input : Bytes) (before ts : List Token) :
    Utf8.encode (String.join (Style.shown ⟨true, false⟩ input before ts)) = listed before ts := by
  induction ts generalizing before with
  | nil => rfl
  | cons t ts ih =>
    rw [Style.shown, if_pos rfl, String.join_cons, Utf8.encode_append, encode_line, ih, listed]

theorem listed_eq_nil_or (before ts : List Token) :
    listed before ts = [] ∨ ∃ x, listed before ts = x ++ [Byte.newline] := by
  induction ts generalizing before with
  | nil => exact .inl rfl
  | cons t ts ih =>
    rw [listed, tokenLine]
    rcases ih (before ++ [t]) with hnil | ⟨x, hx⟩
    · exact .inr ⟨_, by rw [hnil, List.append_nil]⟩
    · exact .inr ⟨_, by rw [hx, ← List.append_assoc]⟩

theorem aboveLastLine_append {s line : Bytes} (hs : s = [] ∨ ∃ x, s = x ++ [Byte.newline])
    (hline : Byte.newline ∉ line) : aboveLastLine (s ++ (line ++ [Byte.newline])) = s := by
  have hpass : ∀ b ∈ line.reverse, (b != Byte.newline) = true := by
    intro b hb
    exact bne_iff_ne.2 fun h => hline (h ▸ List.mem_reverse.1 hb)
  rw [aboveLastLine, ← List.append_assoc, List.dropLast_concat, List.rdropWhile,
    List.reverse_append, List.dropWhile_append_of_pos hpass]
  rcases hs with rfl | ⟨x, rfl⟩
  · rfl
  · simp

theorem exists_summary_eq (w : Walk) : ∃ line, Byte.newline ∉ line ∧
    Utf8.encode w.summary = line ++ [Byte.newline] := by
  refine ⟨_, ?_, Utf8.encode_append _ "\n"⟩
  have htoplevel := Utf8.newline_notMem_toString_int w.toplevel.toInt
  have hentered := Utf8.newline_notMem_toString_int w.entered.toInt
  have hlabels : Byte.newline ∉ Utf8.encode ";; count_toplevel = " ∧
      Byte.newline ∉ Utf8.encode ", count_enter = " := by decide
  simp only [Utf8.encode_append, List.mem_append, not_or]
  exact ⟨⟨⟨hlabels.1, htoplevel⟩, hlabels.2⟩, hentered⟩

theorem aboveLastLine_listing (before ts : List Token) (w : Walk) :
    aboveLastLine (listed before ts ++ Utf8.encode w.summary) = listed before ts := by
  obtain ⟨line, hline, hsummary⟩ := exists_summary_eq w
  rw [hsummary]
  exact aboveLastLine_append (listed_eq_nil_or before ts) hline

theorem isBlank_replicate (n : Nat) : IsBlank (List.replicate n Byte.space) := by
  intro b hb
  rw [List.eq_of_mem_replicate hb]
  rfl

/-- The lines are the tokens with other blanks: a newline behind each token, and the indentation of
the next one. -/
theorem exists_respaced {ps : List (Token × Bytes)}
    (hshown : ∀ p ∈ ps, Utf8.encode p.1.shown = p.1.text) (before : List Token) :
    ∃ w qs, IsBlank w ∧ Respaced ps qs ∧ weave w qs = listed before (ps.map Prod.fst) := by
  induction ps generalizing before with
  | nil => exact ⟨[], [], isBlank_nil, .nil, rfl⟩
  | cons p ps ih =>
    obtain ⟨t, v⟩ := p
    obtain ⟨ht, hps⟩ := List.forall_mem_cons.1 hshown
    obtain ⟨w, qs, hw, hqs, hweave⟩ := ih hps (before ++ [t])
    have hbehind : IsBlank (Byte.newline :: w) := isBlank_cons.2 ⟨rfl, hw⟩
    refine ⟨List.replicate (t.kind.indentation (openLists before)) Byte.space,
      (t, Byte.newline :: w) :: qs, isBlank_replicate _,
      .cons hbehind (fun _ _ => List.cons_ne_nil _ _) hqs, ?_⟩
    rw [weave_cons, weave_cons_blank, hweave, List.map_cons, listed, tokenLine, ht]
    simp

/-- If all tokens can be listed and all strings are text, the tokens can be read back from their
lines. -/
theorem signature_listed
    (hlistable : ∀ before t after, Token.all input = before ++ t :: after → ¬ t.Unlistable before)
    (hstrings : ∀ t ∈ Token.all input, t.kind = .string → (Utf8.decode? t.text).isSome) :
    (Token.all (listed [] (Token.all input))).map Token.signature =
      (Token.all input).map Token.signature := by
  have hkind (t : Token) (ht : t ∈ Token.all input) : t.kind ≠ .invalid := by
    intro hk
    obtain ⟨before, after, hcut⟩ := List.append_of_mem ht
    exact hlistable before t after hcut (.obstructs (.inl hk))
  have hshown (t : Token) (ht : t ∈ Token.all input) : Utf8.encode t.shown = t.text :=
    (Token.scanned_of_mem_all ht).encode_shown (hkind t ht) (hstrings t ht)
  obtain ⟨w, ps, hparts, hall⟩ := Decomposes.exists_of_all input
  rw [hall, List.forall_mem_map] at hkind hshown
  obtain ⟨w', qs, hw', hqs, hweave⟩ := exists_respaced hshown []
  obtain ⟨rs, hrs, hsegmented, hsignature⟩ := Segmented.respaced hqs hparts.parts
    (fun p hp hinvalid => absurd hinvalid (hkind p hp)) hw' 0
  have hlisted : Decomposes (listed [] (Token.all input)) w' rs :=
    ⟨by rw [hrs, hweave, hall], hsegmented⟩
  rw [hlisted.all_eq, hall, List.map_map, List.map_map, hsignature]

theorem first_unique {α : Type} {P : List α → α → Prop} {xs ys us vs : List α} {x y : α}
    (h : xs ++ x :: us = ys ++ y :: vs) (hx : P xs x) (hy : P ys y)
    (hxs : ∀ early z late, xs = early ++ z :: late → ¬ P early z)
    (hys : ∀ early z late, ys = early ++ z :: late → ¬ P early z) : xs = ys := by
  rcases List.append_eq_append_iff.1 h with ⟨more, hmore, hrest⟩ | ⟨more, hmore, hrest⟩
  · cases more with
    | nil => rw [hmore, List.append_nil]
    | cons z more =>
      cases hrest
      exact absurd hx (hys xs x more hmore)
  · cases more with
    | nil => rw [hmore, List.append_nil]
    | cons z more =>
      cases hrest
      exact absurd hy (hxs ys y more hmore)

/-- What a run with these options comes to: all tokens are listed, or those before the first one
that cannot be listed. -/
theorem run_lists {o : Cli.Options} (hast : o.ast = false) (hprint : o.print = true)
    (hpos : o.pos = false) (input : Bytes) : ∃ passed left, Token.all input = passed ++ left ∧
      (∀ early t late, passed = early ++ t :: late → ¬ t.Unlistable early) ∧
      ((left = [] ∧ ∃ w : Walk, Cli.run o (.ok input) =
          .ok (.success (listed [] passed ++ Utf8.encode w.summary))) ∨
        ∃ t after message, left = t :: after ∧ t.Unlistable passed ∧
          Cli.run o (.ok input) = .ok (.failure (listed [] passed) message)) := by
  obtain ⟨passed, left, hall, hlines, hpassed, hending⟩ :=
    (comes_ofInput ⟨true, false⟩ input).exists_passed
  have hlisted : Utf8.encode (String.join (ofInput ⟨true, false⟩ input).lines) =
      listed [] passed := by
    rw [hlines, encode_join_shown]
  refine ⟨passed, left, hall, fun early t late heq hun => ?_, ?_⟩
  · obtain ⟨obstacle, hstops⟩ := Token.unlistable_iff.1 hun
    exact hpassed early t late heq obstacle hstops
  · obtain ⟨hleft, w, hw⟩ | ⟨t, after, obstacle, hleft, hstops, hobstacle⟩ := hending
    · refine .inl ⟨hleft, w, ?_⟩
      simp [Cli.run, Cli.listing, hast, hprint, hpos, hw, Utf8.encode_append, hlisted]
    · refine .inr ⟨t, after, obstacle.message o.pathBytes (Position.ofOffset input t.offset), hleft,
        Token.unlistable_iff.2 ⟨obstacle, hstops⟩, ?_⟩
      simp [Cli.run, Cli.listing, hast, hprint, hpos, hobstacle, hlisted]

/-- A listing without places is the text again. A run that lists all tokens of a text whose strings
are text writes, above its last line, a text with the same tokens, so parsing it comes to the same
in every arena and with every number of levels. A run fails exactly if some token is invalid, closes
no list, or has more lists around it than can be indented, and then it has listed the tokens before
the first of these. -/
theorem listing_reads_back {o : Cli.Options} (hast : o.ast = false) (hprint : o.print = true)
    (hpos : o.pos = false) (input : Bytes) :
    ∃ outcome, Cli.run o (.ok input) = .ok outcome ∧
      (outcome.exitCode = 0 ∨ outcome.exitCode = 1) ∧
      (outcome.exitCode = 0 →
        let above := aboveLastLine outcome.stdout
        above = listed [] (Token.all input) ∧
          ((∀ t ∈ Token.all input, t.kind = .string → (Utf8.decode? t.text).isSome) →
            (Token.all above).map Token.signature = (Token.all input).map Token.signature ∧
            ∀ a maxDepth,
              Parsed.Same input above (parse input a maxDepth).result
                (parse above a maxDepth).result ∧
              (parse above a maxDepth).arena = (parse input a maxDepth).arena)) ∧
      (outcome.exitCode = 1 ↔
        ∃ before t after, Token.all input = before ++ t :: after ∧ t.Unlistable before) ∧
      ∀ before t after, Token.all input = before ++ t :: after → t.Unlistable before →
        (∀ early u late, before = early ++ u :: late → ¬ u.Unlistable early) →
        outcome.exitCode = 1 ∧ outcome.stdout = listed [] before := by
  obtain ⟨passed, left, hall, hpassed, hending⟩ := run_lists hast hprint hpos input
  rcases hending with ⟨rfl, w, hrun⟩ | ⟨t, after, message, rfl, ht, hrun⟩
  · rw [List.append_nil] at hall
    subst hall
    refine ⟨_, hrun, .inl rfl, fun _ => ?_, ?_, ?_⟩
    · intro above
      have habove : above = listed [] (Token.all input) := aboveLastLine_listing [] _ w
      refine ⟨habove, fun hstrings => ?_⟩
      have hsignature := signature_listed hpassed hstrings
      rw [habove]
      exact ⟨hsignature, fun a maxDepth => parse_of_signature hsignature.symm a maxDepth⟩
    · refine iff_of_false Nat.zero_ne_one ?_
      rintro ⟨before, t, after, hcut, hun⟩
      exact hpassed before t after hcut hun
    · intro before t after hcut hun _
      exact absurd hun (hpassed before t after hcut)
  · refine ⟨_, hrun, .inr rfl, fun hzero => absurd hzero Nat.one_ne_zero,
      iff_of_true rfl ⟨passed, t, after, hall, ht⟩, ?_⟩
    intro before u late hcut hu hbefore
    have hsame : passed = before :=
      first_unique (P := fun before t => t.Unlistable before) (hall.symm.trans hcut) ht hu hpassed
        hbefore
    rw [← hsame]
    exact ⟨rfl, rfl⟩

/-- A quoted list with a string that has a newline and a parenthesis in it, and a parenthesis too
many behind a symbol. -/
theorem listing_reads_back_newline_in_string :
    (∃ outcome, Cli.run { print := true } (.ok [39, 40, 34, 97, 10, 40, 34, 32, 98, 41]) =
        .ok outcome ∧ outcome.exitCode = 0 ∧
      (Token.all (aboveLastLine outcome.stdout)).map Token.signature =
        [(.quote, [39]), (.leftParen, [40]), (.string, [34, 97, 10, 40, 34]), (.symbol, [98]),
          (.rightParen, [41])]) ∧
    ∃ outcome, Cli.run { print := true } (.ok [98, 41]) = .ok outcome ∧
      outcome.exitCode = 1 ∧ outcome.stdout = [98, 10] := by
  constructor
  · have hall : Token.all [39, 40, 34, 97, 10, 40, 34, 32, 98, 41] =
        [⟨.quote, [39], 0⟩, ⟨.leftParen, [40], 1⟩, ⟨.string, [34, 97, 10, 40, 34], 2⟩,
          ⟨.symbol, [98], 8⟩, ⟨.rightParen, [41], 9⟩] :=
      Lexes.iff_eq_all.1 (.token rfl rfl (.token rfl rfl (.token rfl rfl (.blank rfl
        (.token rfl rfl (.token rfl rfl .done))))))
    have hexit : ∃ stdout, Cli.run { print := true }
        (.ok [39, 40, 34, 97, 10, 40, 34, 32, 98, 41]) = .ok (.success stdout) := by
      simp only [Cli.run, Cli.listing, ofInput, hall]
      exact ⟨_, rfl⟩
    obtain ⟨outcome, hrun, _, hread, _⟩ :=
      listing_reads_back (o := { print := true }) rfl rfl rfl
        [39, 40, 34, 97, 10, 40, 34, 32, 98, 41]
    obtain ⟨stdout, hsuccess⟩ := hexit
    cases hrun.symm.trans hsuccess
    have hsignature := ((hread rfl).2 (by rw [hall]; decide +kernel)).1
    rw [hall] at hsignature
    exact ⟨_, hsuccess, rfl, hsignature⟩
  · have hall : Token.all [98, 41] = [⟨.symbol, [98], 0⟩, ⟨.rightParen, [41], 1⟩] :=
      Lexes.iff_eq_all.1 (.token rfl rfl (.token rfl rfl .done))
    have hunlistable : Token.Unlistable [⟨.symbol, [98], 0⟩] ⟨.rightParen, [41], 1⟩ :=
      .obstructs (Token.obstructs_iff.2 (.inr ⟨rfl, rfl⟩))
    have hsymbol (early : List Token) (u : Token) (late : List Token)
        (h : [⟨.symbol, [98], 0⟩] = early ++ u :: late) : ¬ u.Unlistable early := by
      obtain ⟨rfl, h⟩ | ⟨_, h⟩ := List.append_eq_singleton_iff.1 h.symm
      · cases h
        rintro (h | ⟨h, hdeep⟩)
        · simp [Token.obstructs_iff] at h
        · rw [h.eq] at hdeep
          exact absurd hdeep (by decide)
      · cases h
    obtain ⟨outcome, hrun, _, _, _, hfirst⟩ :=
      listing_reads_back (o := { print := true }) rfl rfl rfl [98, 41]
    obtain ⟨hexit, hstdout⟩ := hfirst [⟨.symbol, [98], 0⟩] _ [] hall hunlistable hsymbol
    have hlisted : listed [] [⟨.symbol, [98], 0⟩] = [98, 10] := by decide +kernel
    exact ⟨outcome, hrun, hexit, hstdout.trans hlisted⟩

end Listing

end Sexpr
