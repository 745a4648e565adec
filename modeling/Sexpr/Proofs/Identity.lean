import Sexpr.Proofs.Exchange
import Sexpr.Proofs.Limit
import Sexpr.Proofs.RoundTrip

/-! # Equality, trees and texts

Values are compared node by node, whatever they share, and are equal exactly if they stand for the
same tree. A text tells from which forms it is derived, so the written form of a readable tree tells
which tree it is, and equal values are those that are written alike.
-/

namespace Sexpr

open Form (listTokens listSize)

theorem Form.eq_of_listTokens_eq {forms others : List Form}
    (hok : ∀ t ∈ listTokens forms, t.Acceptable) (h : listTokens forms = listTokens others) :
    forms = others := by
  let d := max (listDepth forms) (listDepth others)
  have hforms : (Outline.top []).read d (listTokens forms) = .ok (.top forms) :=
    Outline.read_eq_top_iff.2 ⟨rfl, hok, Nat.le_max_left _ _⟩
  have hothers : (Outline.top []).read d (listTokens forms) = .ok (.top others) :=
    Outline.read_eq_top_iff.2 ⟨h.symm, hok, Nat.le_max_right _ _⟩
  cases hforms.symm.trans hothers
  rfl

namespace Tree

variable {t u : Tree} {ts us : List Tree}

theorem ofList_inj : ofList ts = ofList us ↔ ts = us := by
  constructor
  · intro h
    rw [← elements_ofList ts, h, elements_ofList]
  · rintro rfl
    rfl

theorem text_eq_iff (ht : t.Readable) (hu : u.Readable) : t.text = u.text ↔ t = u := by
  constructor
  · intro h
    rcases exists_derived_text ht with ⟨form, rfl, hok, htokens⟩
    rcases exists_derived_text hu with ⟨other, rfl, _, htokens'⟩
    rw [← h, ← htokens] at htokens'
    have hok' : ∀ u ∈ listTokens [form], u.Acceptable := by
      rwa [listTokens, listTokens, List.append_nil]
    cases Form.eq_of_listTokens_eq hok' htokens'.symm
    rfl
  · rintro rfl
    rfl

theorem documentText_eq_iff (hts : ∀ t ∈ ts, t.Readable) (hus : ∀ u ∈ us, u.Readable) :
    documentText ts = documentText us ↔ ts = us := by
  constructor
  · intro h
    rcases exists_derived_documentText hts with ⟨forms, rfl, hok, htokens⟩
    rcases exists_derived_documentText hus with ⟨others, rfl, _, htokens'⟩
    rw [← h, ← htokens] at htokens'
    rw [Form.eq_of_listTokens_eq hok htokens'.symm]
  · rintro rfl
    rfl

end Tree

theorem symbolText_iff_all {text : Bytes} :
    SymbolText text ↔ Token.all text = [⟨.symbol, text, 0⟩] := by
  constructor
  · intro h
    cases text with
    | nil => exact absurd rfl h.nonempty
    | cons b s =>
      have hscan := Lexeme.scan_symbolText h
      exact Lexes.iff_eq_all.1
        (.token (Lexeme.isBlank_eq_false_of_scan hscan (by decide)) hscan .done)
  · intro h
    have hscanned : Token.Scanned ⟨.symbol, text, 0⟩ :=
      Token.scanned_of_mem_all (h ▸ List.mem_singleton_self _)
    exact (hscanned.symbol rfl).1

namespace Arena

/-- Every chain of cells ends in the empty list, and the name of every symbol is one symbol
token. -/
structure Plain (a : Arena) (r : Ref) : Prop where
  chains : ∀ s first rest, a.Reaches r s → a.get? s = some (.pair first rest) → a.IsChain s
  symbols : ∀ s name, a.Reaches r s → a.get? s = some (.symbol name) →
    Token.all (Utf8.encode name) = [⟨.symbol, Utf8.encode name, 0⟩]

variable {a b : Arena} {r : Ref}

theorem plain_iff_readable : a.Plain r ↔ a.Readable r := by
  constructor
  · intro h
    exact ⟨h.chains, fun s name hs hnode => symbolText_iff_all.2 (h.symbols s name hs hnode)⟩
  · intro h
    exact ⟨h.chains, fun s name hs hnode => symbolText_iff_all.1 (h.symbols s name hs hnode)⟩

end Arena

theorem exists_forms_of_parse {input : Bytes} {a : Arena} {d : Nat} {r : Ref}
    (h : (parse input a d).result = .ok r) :
    ∃ forms, (Outline.top []).read d (Token.all input) = .ok (.top forms) ∧
      (∀ t ∈ forms.map Form.tree, t.Readable) ∧ a.HasRoom (listSize forms) ∧
      (parse input a d).arena.Unfolds r (.ofList (forms.map Form.tree)) ∧
      (parse input a d).arena.size = a.size + listSize forms := by
  rcases parse_eq_ok_iff.1 h with ⟨forms, hread, hroom, rfl⟩
  have hunfolds := unfolds_parse hread hroom
  have hreadable := readable_of_read hread
  rw [Form.listTree_eq] at hunfolds hreadable
  exact ⟨forms, hread, Tree.readable_ofList.1 hreadable, hroom, hunfolds, size_parse hread hroom⟩

/-- Values without missing nodes and circles are equal exactly if they stand for the same tree,
wherever their nodes lie and whichever of them are shared. So equality can be turned round and
chained across arenas. If all chains are proper and all symbols are symbol tokens, equal values are
those that are printed alike, and results of parses into empty arenas are equal exactly if the same
is written of them; then there are as many nodes. -/
theorem equal_iff_same_tree_iff_same_text :
    (∀ (a b : Arena) (x y : Ref), a.Sound x → b.Sound y →
      (∃ t u, a.Unfolds x t ∧ b.Unfolds y u ∧ a.equal x b y = .ok (decide (t = u))) ∧
      a.equal x a x = .ok true ∧ b.equal y a x = a.equal x b y ∧
      (∀ c z, c.Sound z → a.equal x b y = .ok true → b.equal y c z = .ok true →
        a.equal x c z = .ok true) ∧
      (a.Plain x → b.Plain y → ∃ s t, a.print x = .ok s ∧ b.print y = .ok t ∧
        a.equal x b y = .ok (decide (s = t)))) ∧
    ∀ (u v : Bytes) (m n : Option Nat) (d e : Nat) (r s : Ref),
      let p := parse u { limit := m } d
      let q := parse v { limit := n } e
      p.result = .ok r → q.result = .ok s →
        (∃ text text', Document.writeAll Device.sink {} p.arena r =
            ⟨text, .ok (), { flushes := 1 }⟩ ∧
          Document.writeAll Device.sink {} q.arena s = ⟨text', .ok (), { flushes := 1 }⟩ ∧
          p.arena.equal r q.arena s = .ok (decide (text = text'))) ∧
        (p.arena.equal r q.arena s = .ok true → q.arena.size = p.arena.size) := by
  constructor
  · intro a b x y hx hy
    rcases hx.exists_unfolds with ⟨t, ht⟩
    rcases hy.exists_unfolds with ⟨u, hu⟩
    refine ⟨⟨t, u, ht, hu, Arena.equal_eq ht hu⟩, ?_, ?_, ?_, ?_⟩
    · rw [Arena.equal_eq ht ht, decide_eq_true rfl]
    · rw [Arena.equal_eq hu ht, Arena.equal_eq ht hu, decide_eq_decide.2 eq_comm]
    · intro c z hz hxy hyz
      rcases hz.exists_unfolds with ⟨v, hv⟩
      rw [Arena.equal_eq ht hu, Except.ok.injEq, decide_eq_true_iff] at hxy
      rw [Arena.equal_eq hu hv] at hyz
      rw [Arena.equal_eq ht hv, hxy, hyz]
    · intro hplainx hplainy
      have hreadable := (Arena.readable_iff ht).1 (Arena.plain_iff_readable.1 hplainx)
      have hreadable' := (Arena.readable_iff hu).1 (Arena.plain_iff_readable.1 hplainy)
      refine ⟨t.text, u.text, Arena.print_eq ht, Arena.print_eq hu, ?_⟩
      rw [Arena.equal_eq ht hu, decide_eq_decide.2 (Tree.text_eq_iff hreadable hreadable')]
  · intro u v m n d e r s p q hr hs
    rcases exists_forms_of_parse hr with ⟨forms, hread, hreadable, _, hunfolds, hsize⟩
    rcases exists_forms_of_parse hs with ⟨others, hread', hreadable', _, hunfolds', hsize'⟩
    have hequal := Arena.equal_eq hunfolds hunfolds'
    refine ⟨⟨_, _, Document.writeAll_unbounded hunfolds, Document.writeAll_unbounded hunfolds',
      ?_⟩, ?_⟩
    · have htext := Tree.documentText_eq_iff hreadable hreadable'
      rw [hequal, decide_eq_decide.2 (Tree.ofList_inj.trans htext.symm)]
    · rw [hequal, Except.ok.injEq, decide_eq_true_iff, ← Form.listTree_eq, ← Form.listTree_eq]
      intro htree
      rw [hsize, hsize', Outline.listSize_eq_of_read hread hread' htree]
      rfl

/-- The list `((a) a)` with a shared cell and without, and the texts `'a` and `(quote a)`. -/
theorem equal_iff_same_text_shared_cell :
    let separate : Arena :=
      { nodes := #[.symbol "a", .pair ⟨1⟩ Ref.nil, .symbol "a", .pair ⟨3⟩ Ref.nil, .pair ⟨4⟩ ⟨2⟩] }
    (listAndPair.Sound ⟨3⟩ ∧ separate.Sound ⟨5⟩ ∧ listAndPair.Plain ⟨3⟩ ∧ separate.Plain ⟨5⟩ ∧
      listAndPair.equal ⟨3⟩ separate ⟨5⟩ = .ok true ∧
      ∃ s, listAndPair.print ⟨3⟩ = .ok s ∧ separate.print ⟨5⟩ = .ok s) ∧
    (listAndPair.Sound ⟨4⟩ ∧ listAndPair.equal ⟨3⟩ listAndPair ⟨4⟩ = .ok false) ∧
    ∃ text, Document.writeAll Device.sink {} (parse [39, 97] {} 1).arena ⟨5⟩ =
        ⟨text, .ok (), { flushes := 1 }⟩ ∧
      Document.writeAll Device.sink {} (parse [40, 113, 117, 111, 116, 101, 32, 97, 41] {} 1).arena
        ⟨5⟩ = ⟨text, .ok (), { flushes := 1 }⟩ := by
  intro separate
  have hshared := listAndPair.unfolds_list
  have hseparate : separate.Unfolds ⟨5⟩ (.ofList [.ofList [.symbol "a"], .symbol "a"]) :=
    .pair rfl (.pair rfl (.symbol rfl) (.nil rfl)) (.pair rfl (.symbol rfl) (.nil rfl))
  have hplain : listAndPair.Plain ⟨3⟩ := Arena.plain_iff_readable.2 listAndPair.readable_list
  have hplain' : separate.Plain ⟨5⟩ := by
    rw [Arena.plain_iff_readable, Arena.readable_iff hseparate, ← Arena.readable_iff hshared]
    exact listAndPair.readable_list
  refine ⟨?_, ?_, ?_⟩
  · rcases equal_iff_same_tree_iff_same_text.1 listAndPair separate ⟨3⟩ ⟨5⟩ hshared.sound
      hseparate.sound with ⟨⟨t, u, ht, hu, hequal⟩, _, _, _, htexts⟩
    cases ht.unique hshared
    cases hu.unique hseparate
    rw [decide_eq_true rfl] at hequal
    rcases htexts hplain hplain' with ⟨s, s', hs, hs', htext⟩
    rw [hequal, Except.ok.injEq, eq_comm, decide_eq_true_iff] at htext
    exact ⟨hshared.sound, hseparate.sound, hplain, hplain', hequal, s, hs, htext ▸ hs'⟩
  · rcases equal_iff_same_tree_iff_same_text.1 listAndPair listAndPair ⟨3⟩ ⟨4⟩ hshared.sound
      listAndPair.unfolds_pair.sound with ⟨⟨t, u, ht, hu, hequal⟩, _⟩
    cases ht.unique hshared
    cases hu.unique listAndPair.unfolds_pair
    exact ⟨listAndPair.unfolds_pair.sound, hequal⟩
  · have hshort : (parse [39, 97] {} 1).result = .ok ⟨5⟩ ∧ (parse [39, 97] {} 1).arena =
        ⟨#[.symbol "a", .symbol "quote", .pair ⟨1⟩ Ref.nil, .pair ⟨2⟩ ⟨3⟩, .pair ⟨4⟩ Ref.nil],
          none⟩ := by
      have hall : Token.all [39, 97] = [⟨.quote, [39], 0⟩, ⟨.symbol, [97], 1⟩] :=
        Lexes.iff_eq_all.1 (.token rfl rfl (.token rfl rfl .done))
      rw [parse, hall]
      exact ⟨rfl, rfl⟩
    have hlong : (parse [40, 113, 117, 111, 116, 101, 32, 97, 41] {} 1).result = .ok ⟨5⟩ ∧
        (parse [40, 113, 117, 111, 116, 101, 32, 97, 41] {} 1).arena =
          ⟨#[.symbol "quote", .pair ⟨1⟩ ⟨4⟩, .symbol "a", .pair ⟨3⟩ Ref.nil, .pair ⟨2⟩ Ref.nil],
            none⟩ := by
      have hall : Token.all [40, 113, 117, 111, 116, 101, 32, 97, 41] = [⟨.leftParen, [40], 0⟩,
          ⟨.symbol, [113, 117, 111, 116, 101], 1⟩, ⟨.symbol, [97], 7⟩, ⟨.rightParen, [41], 8⟩] :=
        Lexes.iff_eq_all.1 (.token rfl rfl (.token rfl rfl (.blank rfl (.token rfl rfl
          (.token rfl rfl .done)))))
      rw [parse, hall]
      exact ⟨rfl, rfl⟩
    rcases equal_iff_same_tree_iff_same_text.2 [39, 97] [40, 113, 117, 111, 116, 101, 32, 97, 41]
      none none 1 1 ⟨5⟩ ⟨5⟩ hshort.1 hlong.1 with ⟨⟨text, text', htext, htext', hequal⟩, _⟩
    have htrue : (parse [39, 97] {} 1).arena.equal ⟨5⟩
        (parse [40, 113, 117, 111, 116, 101, 32, 97, 41] {} 1).arena ⟨5⟩ = .ok true := by
      rw [hshort.2, hlong.2]
      rfl
    rw [htrue, Except.ok.injEq, eq_comm, decide_eq_true_iff] at hequal
    exact ⟨text, htext, hequal ▸ htext'⟩

end Sexpr
