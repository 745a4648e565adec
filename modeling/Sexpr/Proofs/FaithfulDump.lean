import Sexpr.Proofs.Dump
import Sexpr.Proofs.Identity
import Sexpr.Proofs.RoundTrip

/-! # What a dump tells of a value

If all lists of two values are proper, their dumps are equal only if the values are. A dump is
readable whatever the value is, because the names in it are symbols and everything else is a number
or a list, and it nests one level deeper than the value at most.
-/

namespace Sexpr

namespace Tree

def Proper : Tree → Prop
  | pair first rest => first.Proper ∧ rest.Proper ∧ rest.IsList
  | _ => True

variable {t u : Tree} {ts : List Tree}

theorem ofByte_inj {b c : UInt8} (h : ofByte b = ofByte c) : b = c := by
  have hvalue := congrArg Int64.toInt (integer.inj h)
  have hsmall (b : UInt8) : b.toNat < 2 ^ 63 := b.toNat_lt.trans (by decide)
  rw [Int64.toInt_ofNat_of_lt (hsmall b), Int64.toInt_ofNat_of_lt (hsmall c)] at hvalue
  exact UInt8.toNat_inj.1 (Int.ofNat.inj hvalue)

theorem tagged_inj {tag tag' : String} {bytes bytes' : Bytes}
    (h : tagged tag bytes = tagged tag' bytes') : tag = tag' ∧ bytes = bytes' := by
  rw [tagged, tagged, ofList_inj, List.cons_eq_cons, symbol.injEq] at h
  exact ⟨h.1, List.map_injective_iff.2 (fun _ _ => ofByte_inj) h.2⟩

theorem encode_inj {name name' : String} (h : Utf8.encode name = Utf8.encode name') :
    name = name' := by
  have hdecode := congrArg Utf8.decode? h
  rw [Utf8.decode?_encode, Utf8.decode?_encode] at hdecode
  exact Option.some.inj hdecode

/-- Dumps of proper trees are different for different trees. The induction needs the same of the
dumps of the elements of proper lists, since the rest of a list is not dumped as a list. -/
theorem dump_inj_and (ht : t.Proper) : ∀ u : Tree, u.Proper →
    (t.dump = u.dump → t = u) ∧ (t.IsList → u.IsList → t.dumps = u.dumps → t = u) := by
  induction t with
  | nil =>
    intro u hu
    cases u <;> simp [dump, tagged, dumps, ofList, IsList]
  | pair first rest ihfirst ihrest =>
    intro u hu
    cases u with
    | pair first' rest' =>
      have hparts (hfirst : first.dump = first'.dump) (hrest : rest.dumps = rest'.dumps) :
          pair first rest = pair first' rest' := by
        rw [(ihfirst ht.1 first' hu.1).1 hfirst,
          (ihrest ht.2.1 rest' hu.2.1).2 ht.2.2 hu.2.2 hrest]
      refine ⟨fun h => ?_, fun _ _ h => ?_⟩
      · rw [dump, dump, ofList_inj] at h
        simp only [List.cons.injEq, true_and] at h
        exact hparts h.1 h.2
      · rw [dumps, dumps, List.cons.injEq] at h
        exact hparts h.1 h.2
    | _ => simp [dump, tagged, dumps, ofList, IsList]
  | string contents =>
    intro u hu
    cases u with
    | string contents' =>
      exact ⟨fun h => congrArg string (tagged_inj h).2, False.elim⟩
    | symbol name => exact ⟨fun h => absurd (tagged_inj h).1 (by decide), False.elim⟩
    | _ => simp [dump, tagged, ofList, IsList]
  | symbol name =>
    intro u hu
    cases u with
    | string contents' => exact ⟨fun h => absurd (tagged_inj h).1 (by decide), False.elim⟩
    | symbol name' =>
      exact ⟨fun h => congrArg symbol (encode_inj (tagged_inj h).2), False.elim⟩
    | _ => simp [dump, tagged, ofList, IsList]
  | integer value =>
    intro u hu
    cases u <;> simp [dump, tagged, ofList, IsList]

theorem dump_inj (ht : t.Proper) (hu : u.Proper) : t.dump = u.dump ↔ t = u :=
  ⟨(dump_inj_and ht u hu).1, congrArg dump⟩

theorem readable_tagged {tag : String} (htag : SymbolText (Utf8.encode tag)) (bytes : Bytes) :
    (tagged tag bytes).Readable := by
  refine readable_ofList.2 (List.forall_mem_cons.2 ⟨htag, ?_⟩)
  simp [ofByte, Readable]

theorem readable_dump (t : Tree) : t.dump.Readable := by
  have hlist : SymbolText (Utf8.encode "list") := by decide
  have hall (t : Tree) : t.dump.Readable ∧ ∀ u ∈ t.dumps, u.Readable := by
    induction t with
    | nil => exact ⟨readable_ofList.2 (List.forall_mem_singleton.2 hlist), nofun⟩
    | pair first rest ihfirst ihrest =>
      have hitems := List.forall_mem_cons.2 ⟨ihfirst.1, ihrest.2⟩
      exact ⟨readable_ofList.2 (List.forall_mem_cons.2 ⟨hlist, hitems⟩), hitems⟩
    | string contents => exact ⟨readable_tagged (by decide) contents, nofun⟩
    | symbol name => exact ⟨readable_tagged (by decide) _, nofun⟩
    | integer value =>
      have hinteger : SymbolText (Utf8.encode "integer") := by decide
      exact ⟨readable_ofList.2 (List.forall_mem_cons.2 ⟨hinteger,
        List.forall_mem_singleton.2 trivial⟩), nofun⟩
  exact (hall t).1

theorem depth_ofList_le {n : Nat} (h : ∀ t ∈ ts, t.depth ≤ n) : (ofList ts).depth ≤ n + 1 := by
  induction ts with
  | nil => exact Nat.le_add_left 1 n
  | cons t ts ih =>
    rw [List.forall_mem_cons] at h
    have hrest := ih h.2
    rw [ofList, depth]
    omega

theorem depth_tagged_le (tag : String) (bytes : Bytes) : (tagged tag bytes).depth ≤ 1 := by
  refine depth_ofList_le (List.forall_mem_cons.2 ⟨Nat.le_refl 0, ?_⟩)
  simp [ofByte, depth]

/-- Each list becomes a list, and each atom becomes a list of atoms. -/
theorem depth_dump_le (t : Tree) : t.dump.depth ≤ t.depth + 1 := by
  have hall (t : Tree) : t.dump.depth ≤ t.depth + 1 ∧ ∀ u ∈ t.dumps, u.depth ≤ t.depth := by
    induction t with
    | nil => exact ⟨by decide, nofun⟩
    | pair first rest ihfirst ihrest =>
      have hitems : ∀ u ∈ (pair first rest).dumps, u.depth ≤ (pair first rest).depth := by
        refine List.forall_mem_cons.2 ⟨ihfirst.1.trans (Nat.le_max_left _ _), fun u hu => ?_⟩
        exact (ihrest.2 u hu).trans (Nat.le_max_right _ _)
      exact ⟨depth_ofList_le (List.forall_mem_cons.2 ⟨Nat.zero_le _, hitems⟩), hitems⟩
    | string contents => exact ⟨depth_tagged_le _ _, nofun⟩
    | symbol name => exact ⟨depth_tagged_le _ _, nofun⟩
    | integer value => exact ⟨by simp [dump, ofList, depth], nofun⟩
  exact (hall t).1

end Tree

namespace Arena

def Proper (a : Arena) (r : Ref) : Prop :=
  ∀ s first rest, a.Reaches r s → a.get? s = some (.pair first rest) → a.IsChain s

variable {a b : Arena} {r s v w : Ref} {t u : Tree}

theorem Proper.of_points (h : a.Proper r) (hs : a.Points r s) : a.Proper s :=
  fun q first rest hq => h q first rest (hq.head hs)

theorem Unfolds.proper (h : a.Unfolds r t) (hproper : a.Proper r) : t.Proper := by
  induction h with
  | @pair r first rest _ _ h hfirst hrest ihfirst ihrest =>
    have hlist := (isChain_iff (.pair h hfirst hrest)).1 (hproper r first rest .refl h)
    exact ⟨ihfirst (hproper.of_points ⟨_, h, by simp [Node.slots]⟩),
      ihrest (hproper.of_points ⟨_, h, by simp [Node.slots]⟩), hlist⟩
  | _ => trivial

theorem exists_dump (h : a.Unfolds v t) (hroom : a.size + t.dumpCost ≤ a.capacity) :
    ∃ d nodes, dump v a = .ok d (a.extend nodes) ∧ (a.extend nodes).Unfolds d t.dump := by
  have hin := InLimit.of_le hroom
  rcases (takes_dump hin h).fits (hin.hasRoom_iff.2 hroom) with ⟨d, nodes, hok, _, hd⟩
  exact ⟨d, nodes, hok, hd⟩

theorem equal_dumps {d d' : Ref} {a' b' : Arena} (hv : a.Unfolds v t) (hw : b.Unfolds w u)
    (ht : t.Proper) (hu : u.Proper) (hd : a'.Unfolds d t.dump) (hd' : b'.Unfolds d' u.dump) :
    a'.equal d b' d' = a.equal v b w := by
  rw [equal_eq hd hd', equal_eq hv hw, decide_eq_decide.2 (Tree.dump_inj ht hu)]

end Arena

theorem parse_dump_text {c : Arena} (t : Tree) {maxDepth : Nat}
    (hdepth : t.depth + 1 ≤ maxDepth) (hroom : c.HasRoom (t.dump.size + 1)) :
    ∃ r e, (parse t.dump.text c maxDepth).result = .ok r ∧
      (parse t.dump.text c maxDepth).arena.IsSingleton r e ∧
        (parse t.dump.text c maxDepth).arena.Unfolds e t.dump := by
  rcases exists_derived_text t.readable_dump with ⟨form, hform, hok, htokens⟩
  have hok' : ∀ u ∈ Form.listTokens [form], u.Acceptable := by
    rwa [Form.listTokens, Form.listTokens, List.append_nil]
  have hlevels : Form.listDepth [form] ≤ maxDepth := by
    have hle := t.depth_dump_le
    rw [← hform, Form.depth_tree form hok] at hle
    rw [Form.listDepth, Form.listDepth, Nat.max_zero]
    exact hle.trans hdepth
  rw [← hform, Form.size_tree form hok] at hroom
  rcases parse_of_derived htokens hok' hlevels hroom with ⟨r, hr, hunfolds, _⟩
  rw [Form.listTree_eq, List.map_singleton, hform] at hunfolds
  rcases Arena.Unfolds.isSingleton hunfolds with ⟨e, he, hunfolds'⟩
  exact ⟨r, e, hr, he, hunfolds'⟩

/-- Where there is room, a value without missing nodes or circles all of whose lists are proper is
dumped into the description of its tree. What is written of the dump is read as one form that is
equal to the dump, if one level more is allowed than the value has and there is room for the nodes
of the description and the cell of a list around it. Two dumps are equal exactly if
the values are, also when nodes are added later, as by the second dump if both are in one arena. The
list of the dumps of all elements has the descriptions of the elements, in order. -/
theorem dump_describes_value (a : Arena) (v : Ref) (hv : a.Sound v) (hproper : a.Proper v) :
    ∃ t, a.Unfolds v t ∧
      (a.size + t.dumpCost ≤ a.capacity → ∃ d nodes, Arena.dump v a = .ok d (a.extend nodes) ∧
        (a.extend nodes).Unfolds d t.dump ∧
        (∃ text, (a.extend nodes).print d = .ok text ∧
          ∀ c maxDepth, c.HasRoom (t.dump.size + 1) → t.depth + 1 ≤ maxDepth →
            ∃ r e, (parse text c maxDepth).result = .ok r ∧
              (parse text c maxDepth).arena.IsSingleton r e ∧
              (parse text c maxDepth).arena.Unfolds e t.dump ∧
              (a.extend nodes).equal d (parse text c maxDepth).arena e = .ok true) ∧
        ∀ b w, b.Sound w → b.Proper w → ∃ u, b.Unfolds w u ∧ (b.size + u.dumpCost ≤ b.capacity →
          ∃ d' others, Arena.dump w b = .ok d' (b.extend others) ∧
            ∃ answer, a.equal v b w = .ok answer ∧ ∀ more more',
              ((a.extend nodes).extend more).equal d ((b.extend others).extend more') d' =
                .ok answer)) ∧
      (a.size + (t.elements.length + (t.elements.map Tree.dumpCost).sum) ≤ a.capacity →
        ∃ d nodes, Arena.dumpForms v a = .ok d (a.extend nodes) ∧
          (a.extend nodes).Unfolds d (.ofList (t.elements.map Tree.dump))) := by
  rcases hv.exists_unfolds with ⟨t, ht⟩
  refine ⟨t, ht, fun hroom => ?_, fun hroom => ?_⟩
  · rcases Arena.exists_dump ht hroom with ⟨d, nodes, hok, hd⟩
    refine ⟨d, nodes, hok, hd, ⟨_, Arena.print_eq hd, ?_⟩, ?_⟩
    · intro c maxDepth hroom' hdepth
      rcases parse_dump_text t hdepth hroom' with ⟨r, e, hr, he, hform⟩
      exact ⟨r, e, hr, he, hform, by rw [Arena.equal_eq hd hform, decide_eq_true rfl]⟩
    · intro b w hw hproper'
      rcases hw.exists_unfolds with ⟨u, hu⟩
      refine ⟨u, hu, fun hroom' => ?_⟩
      rcases Arena.exists_dump hu hroom' with ⟨d', others, hok', hd'⟩
      refine ⟨d', others, hok', _, Arena.equal_eq ht hu, fun more more' => ?_⟩
      rw [Arena.equal_dumps ht hu (ht.proper hproper) (hu.proper hproper') (hd.extend more)
        (hd'.extend more'), Arena.equal_eq ht hu]
  · have hin := Arena.InLimit.of_le hroom
    rcases (Arena.takes_dumpForms hin ht).fits (hin.hasRoom_iff.2 hroom) with ⟨d, nodes, hok, _, hd⟩
    exact ⟨d, nodes, hok, hd⟩

/-- The list `((a) a)`, and the symbol in it. -/
theorem dump_describes_list :
    listAndPair.Sound ⟨3⟩ ∧ listAndPair.Proper ⟨3⟩ ∧
      ∃ d nodes text, Arena.dump ⟨3⟩ listAndPair = .ok d (listAndPair.extend nodes) ∧
        (listAndPair.extend nodes).print d = .ok text ∧
        text = Utf8.encode "(list (list (symbol 97)) (symbol 97))" ∧
        (∃ r, (parse text {} 3).result = .ok r) ∧
        ∃ d' others, Arena.dump ⟨1⟩ listAndPair = .ok d' (listAndPair.extend others) ∧
          (listAndPair.extend nodes).equal d (listAndPair.extend others) d' = .ok false := by
  have hlist := listAndPair.unfolds_list
  have hsymbol : listAndPair.Unfolds ⟨1⟩ (.symbol "a") := .symbol rfl
  have hproper : listAndPair.Proper ⟨3⟩ := listAndPair.readable_list.chains
  have hproper' : listAndPair.Proper ⟨1⟩ := by
    have hname : SymbolText (Utf8.encode "a") := by decide
    exact ((Arena.readable_iff hsymbol).2 hname).chains
  rcases dump_describes_value listAndPair ⟨3⟩ hlist.sound hproper with ⟨t, ht, hdump, _⟩
  cases ht.unique hlist
  rcases hdump (by decide) with ⟨d, nodes, hok, hd, ⟨text, hprint, hparse⟩, hequal⟩
  refine ⟨hlist.sound, hproper, d, nodes, text, hok, hprint, ?_, ?_, ?_⟩
  · rw [Arena.print_eq hd] at hprint
    cases hprint
    decide +kernel
  · rcases hparse {} 3 (by decide) (by decide) with ⟨r, e, hr, _⟩
    exact ⟨r, hr⟩
  · rcases hequal listAndPair ⟨1⟩ hsymbol.sound hproper' with ⟨u, hu, hdump'⟩
    cases hu.unique hsymbol
    rcases hdump' (by decide) with ⟨d', others, hok', answer, hanswer, hdumps⟩
    refine ⟨d', others, hok', ?_⟩
    have hfalse : answer = false := by
      rw [Arena.equal_eq hlist hsymbol] at hanswer
      cases hanswer
      decide
    have hdumps' := hdumps [] []
    rwa [Arena.extend_nil, Arena.extend_nil, hfalse] at hdumps'

end Sexpr
