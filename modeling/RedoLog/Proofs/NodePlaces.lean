import RedoLog.Proofs.NodeTokens
import RedoLog.Proofs.TiledSource

/-!
# Where nodes stand in their source

A node covers the bytes of its source from the start of its first token to the end of its last one,
and the nodes inside it lie between the two, one behind the other. The index of its first token
tells a unary expression from all others of its tree, and a function from all other functions.
-/

set_option autoImplicit false

namespace RedoLog

namespace Text

theorem split_of_slice {start stop : Nat} {cs ds : List Char}
    (h : slice? start stop cs = some ds) :
    ∃ before behind, cs = before ++ (ds ++ behind) ∧ byteLength before = start ∧
      byteLength (before ++ ds) = stop := by
  have hle := le_of_slice h
  rw [slice?, if_pos hle] at h
  obtain ⟨rest, hdrop, htake⟩ := Option.bind_eq_some_iff.mp h
  obtain ⟨before, rfl, hbefore⟩ := split_of_drop_bytes hdrop
  obtain ⟨behind, rfl, hds⟩ := split_of_take_bytes htake
  refine ⟨before, behind, rfl, hbefore, ?_⟩
  rw [byte_length_append]
  omega

theorem slice_across {start stop start' stop' : Nat} {cs ds ds' : List Char}
    (h : slice? start stop cs = some ds) (h' : slice? start' stop' cs = some ds')
    (hlt : start < stop') : ∃ es, es ≠ [] ∧ slice? start stop' cs = some es := by
  obtain ⟨before, behind, hcs, rfl, -⟩ := split_of_slice h
  obtain ⟨before', behind', hcs', -, rfl⟩ := split_of_slice h'
  rw [← List.append_assoc] at hcs'
  rcases List.append_eq_append_iff.mp (hcs.symm.trans hcs') with
    ⟨es, hes, hbehind⟩ | ⟨es, hes, hbehind⟩
  · refine ⟨es, ?_, ?_⟩
    · rintro rfl
      rw [hes, List.append_nil] at hlt
      omega
    · rw [hes, byte_length_append, hcs, hbehind]
      exact slice_byte_length before es behind'
  · rw [hes, byte_length_append _ es] at hlt
    omega

end Text

structure InOrder (ts : List Token) : Prop where
  apart : ts.Pairwise fun t u => t.stop ≤ u.start
  filled : ∀ t ∈ ts, t.start < t.stop

namespace InOrder

variable {ts us : List Token}

theorem sublist (h : InOrder us) (hts : ts.Sublist us) : InOrder ts :=
  ⟨h.apart.sublist hts, fun t ht => h.filled t (hts.subset ht)⟩

theorem start_le {first last : Token} (h : InOrder ts) (hends : Ends ts first last) :
    ∀ t ∈ ts, first.start ≤ t.start := by
  obtain ⟨rest, rfl⟩ := List.head?_eq_some_iff.mp hends.1
  intro t ht
  rcases List.mem_cons.mp ht with rfl | ht
  · exact Nat.le_refl _
  · have hapart := (List.pairwise_cons.mp h.apart).1 t ht
    have hfirst := h.filled first (List.mem_cons_self ..)
    omega

theorem le_stop {first last : Token} (h : InOrder ts) (hends : Ends ts first last) :
    ∀ t ∈ ts, t.stop ≤ last.stop := by
  obtain ⟨front, rfl⟩ := List.getLast?_eq_some_iff.mp hends.2
  intro t ht
  rcases List.mem_append.mp ht with ht' | ht'
  · have hapart := (List.pairwise_append.mp h.apart).2.2 t ht' last (List.mem_singleton_self _)
    have hlast := h.filled last (by simp)
    omega
  · obtain rfl := List.mem_singleton.mp ht'
    exact Nat.le_refl _

end InOrder

namespace Node

structure Placed (ts : List Token) (n : Node) : Prop where
  first : ∃ t ∈ ts, t.index = n.tokenIndex ∧ t.start = n.start
  last : ∃ t ∈ ts, t.stop = n.stop
  filled : n.start < n.stop
  apart : n.children.Pairwise fun a b => a.stop ≤ b.start
  inside : ∀ child ∈ n.children, n.start ≤ child.start ∧ child.stop ≤ n.stop

structure AllPlaced (ts : List Token) (ns : List Node) : Prop where
  apart : ns.Pairwise fun a b => a.stop ≤ b.start
  placed : ∀ n ∈ preorderAll ns, n.Placed ts

theorem mem_preorder_all_of_mem {n : Node} {ns : List Node} (h : n ∈ ns) : n ∈ preorderAll ns := by
  induction ns with
  | nil => cases h
  | cons m ns ih =>
    rw [preorderAll, List.mem_append]
    rcases List.mem_cons.mp h with rfl | h
    · exact Or.inl (by cases n; simp [preorder])
    · exact Or.inr (ih h)

theorem preorder_all_append (ns ms : List Node) :
    preorderAll (ns ++ ms) = preorderAll ns ++ preorderAll ms := by
  induction ns with
  | nil => rfl
  | cons n ns ih => simp [preorderAll, ih]

theorem preorder_all_span (production : Production) (first last : Token) (ns : List Node) :
    preorderAll [span production first last ns] =
      span production first last ns :: preorderAll ns := by
  simp [preorderAll, span, preorder]

theorem Placed.mono {ts us : List Token} {n : Node} (h : n.Placed ts) (hts : ts ⊆ us) :
    n.Placed us := by
  obtain ⟨t, ht, hfirst⟩ := h.first
  obtain ⟨u, hu, hlast⟩ := h.last
  exact ⟨⟨t, hts ht, hfirst⟩, ⟨u, hts hu, hlast⟩, h.filled, h.apart, h.inside⟩

namespace AllPlaced

variable {ts us : List Token} {ns ms : List Node}

theorem mono (h : AllPlaced ts ns) (hts : ts ⊆ us) : AllPlaced us ns :=
  ⟨h.apart, fun n hn => (h.placed n hn).mono hts⟩

theorem append (hts : InOrder (ts ++ us)) (h : AllPlaced ts ns) (h' : AllPlaced us ms) :
    AllPlaced (ts ++ us) (ns ++ ms) := by
  refine ⟨List.pairwise_append.mpr ⟨h.apart, h'.apart, ?_⟩, ?_⟩
  · intro a ha b hb
    obtain ⟨t, ht, hstop⟩ := (h.placed a (mem_preorder_all_of_mem ha)).last
    obtain ⟨u, hu, -, hstart⟩ := (h'.placed b (mem_preorder_all_of_mem hb)).first
    rw [← hstop, ← hstart]
    exact (List.pairwise_append.mp hts.apart).2.2 t ht u hu
  · rw [preorder_all_append, List.forall_mem_append]
    exact ⟨(h.mono (List.subset_append_left ..)).placed,
      (h'.mono (List.subset_append_right ..)).placed⟩

theorem span (production : Production) {first last : Token} (hts : InOrder ts)
    (hends : Ends ts first last) (h : AllPlaced ts ns) :
    AllPlaced ts [Node.span production first last ns] := by
  have hfirst : first ∈ ts := List.mem_of_mem_head? hends.1
  have hlast : last ∈ ts := List.mem_of_mem_getLast? hends.2
  refine ⟨List.pairwise_singleton _ _, ?_⟩
  rw [preorder_all_span, List.forall_mem_cons]
  refine ⟨⟨⟨first, hfirst, rfl, rfl⟩, ⟨last, hlast, rfl⟩, ?_, h.apart, ?_⟩, h.placed⟩
  · exact Nat.lt_of_lt_of_le (hts.filled first hfirst) (hts.le_stop hends first hfirst)
  · intro child hchild
    have hplaced := h.placed child (mem_preorder_all_of_mem hchild)
    obtain ⟨t, ht, -, hstart⟩ := hplaced.first
    obtain ⟨u, hu, hstop⟩ := hplaced.last
    rw [← hstart, ← hstop]
    exact ⟨hts.start_le hends t ht, hts.le_stop hends u hu⟩

end AllPlaced

theorem sublist_parens (opening closing : Token) (ts : List Token) :
    ts.Sublist (opening :: (ts ++ [closing])) :=
  (List.sublist_append_left ts [closing]).trans (List.sublist_cons_self ..)

theorem Covers.all_placed {ns : List Node} {ts : List Token} (h : Covers ns ts)
    (hts : InOrder ts) : AllPlaced ts ns := by
  induction h with
  | nil => exact ⟨.nil, by simp [preorderAll]⟩
  | skip t _ ih =>
    exact (ih (hts.sublist (List.sublist_cons_self ..))).mono (List.subset_cons_self ..)
  | append _ _ ih ih' =>
    exact .append hts (ih (hts.sublist (List.sublist_append_left ..)))
      (ih' (hts.sublist (List.sublist_append_right ..)))
  | around _ hends _ ih => exact .span _ hts hends (ih hts)
  | value hends _ _ ih => exact .span _ hts hends (ih hts)
  | @group opening closing ns ts _ ih =>
    have hinner := sublist_parens opening closing ts
    exact .span _ hts (.parens _ _ _) ((ih (hts.sublist hinner)).mono hinner.subset)
  | @call name closing text ns ts _ ih =>
    have hinner := sublist_parens name closing ts
    exact .span _ hts (.parens _ _ _)
      (.span _ hts (.parens _ _ _) ((ih (hts.sublist hinner)).mono hinner.subset))

def tags (p : Production → Bool) (ns : List Node) : List Nat :=
  ((preorderAll ns).filter fun n => p n.production).map tokenIndex

variable {p : Production → Bool}

theorem tags_append (ns ms : List Node) : tags p (ns ++ ms) = tags p ns ++ tags p ms := by
  simp [tags, preorder_all_append]

theorem tags_span (production : Production) (first last : Token) (ns : List Node) :
    tags p [span production first last ns] =
      if p production then first.index :: tags p ns else tags p ns := by
  rw [tags, preorder_all_span, List.filter_cons]
  cases h : p production <;> simp [span, h, tags]

theorem tags_span_sublist (production : Production) (first last : Token) {ns : List Node}
    {indices : List Nat} (h : (tags p ns).Sublist indices) :
    (tags p [span production first last ns]).Sublist (first.index :: indices) := by
  rw [tags_span]
  split
  · exact h.cons_cons first.index
  · exact h.cons first.index

/-- Productions of which at most one starts with a token: values, or calls. -/
structure OnePerToken (p : Production → Bool) : Prop where
  tagged : ∀ production, production.isTagged = false → p production = false
  apart : p .unaryExpression = true → ∀ text, p (.function text) = false

theorem Covers.tags_sublist (hp : OnePerToken p) {ns : List Node} {ts : List Token}
    (h : Covers ns ts) : (tags p ns).Sublist (ts.map Token.index) := by
  induction h with
  | nil => exact .slnil
  | skip t _ ih => exact ih.cons _
  | append _ _ ih ih' =>
    rw [tags_append, List.map_append]
    exact ih.append ih'
  | around hplain _ _ ih =>
    rw [tags_span, hp.tagged _ hplain]
    exact ih
  | @value first last ns ts hends hplain _ ih =>
    obtain ⟨rest, rfl⟩ := List.head?_eq_some_iff.mp hends.1
    have hnone : tags p ns = [] := by
      rw [tags, List.map_eq_nil_iff, List.filter_eq_nil_iff]
      intro n hn
      simp [hp.tagged _ (hplain n hn)]
    refine tags_span_sublist _ first last ?_
    rw [hnone]
    exact List.nil_sublist _
  | @group opening closing ns ts _ ih =>
    rw [List.map_cons, List.map_append]
    exact tags_span_sublist _ opening closing (ih.trans (List.sublist_append_left ..))
  | @call name closing text ns ts _ ih =>
    have hinner := ih.trans (List.sublist_append_left _ ([closing].map Token.index))
    rw [List.map_cons, List.map_append]
    -- At most one of the two nodes counts.
    by_cases hvalue : p .unaryExpression = true
    · refine tags_span_sublist _ name closing ?_
      rw [tags_span, hp.apart hvalue text]
      exact hinner
    · rw [tags_span, if_neg hvalue]
      exact tags_span_sublist _ name closing hinner

end Node

theorem in_order_of_lex {source : String} {ts : List Token}
    (h : Lexer.lex source.toList = .ok ts) : InOrder ts := by
  have htokenize : tokenize source = .ok (ts ++ [Lexer.endToken source.toList ts.length]) := by
    rw [tokenize, h]
    rfl
  have htiles := tiles_of_tokenize htokenize
  refine ⟨htiles.ordered.sublist (List.sublist_append_left ..), fun t ht => ?_⟩
  obtain ⟨c, text, -, htext, -⟩ := Lexer.scan_of_lex h ht
  have hpositive := Text.byte_length_pos (List.cons_ne_nil c text)
  rw [Token.stop, htext, String.toList_ofList]
  omega

theorem nodup_index_of_lex {source : List Char} {ts : List Token}
    (h : Lexer.lex source = .ok ts) : (ts.map Token.index).Nodup := by
  have hrange : ts.map Token.index = List.range ts.length := by
    apply List.ext_getElem (by simp)
    intro i hi hi'
    rw [List.getElem_map, List.getElem_range]
    exact Lexer.index_of_lex h (List.getElem?_eq_getElem _)
  rw [hrange]
  exact List.nodup_range

def Production.isFunction : Production → Bool
  | .function _ => true
  | _ => false

theorem Node.one_per_token_value : OnePerToken fun q => decide (q = .unaryExpression) := by
  refine ⟨fun q hq => ?_, fun _ text => rfl⟩
  cases q <;> first | rfl | cases hq

theorem Node.one_per_token_function : OnePerToken Production.isFunction := by
  refine ⟨fun q hq => ?_, by simp [Production.isFunction]⟩
  cases q <;> first | rfl | cases hq

theorem covers_of_parse {source : String} {tree : ParseTree}
    (h : parseInsert source = .ok tree ∨ parseUpdate source = .ok tree) :
    ∃ ts, Lexer.lex source.toList = .ok ts ∧ tree.source = source.toList ∧
      Node.Covers [tree.root] ts := by
  rcases h with h | h
  · obtain ⟨s, hs, rfl⟩ := ok_of_map h
    exact ⟨s.tokens, (Insert.read_eq_ok hs).1, rfl, s.covers⟩
  · obtain ⟨s, hs, rfl⟩ := ok_of_map h
    exact ⟨s.tokens, (Update.read_eq_ok hs).1, rfl, s.covers⟩

/-- Every node of a statement starts with the token that it names and ends with another one, its
text is what stands between the two, and its children are inside it, in order and apart. No two
unary expressions name one token, and no two functions do. -/
theorem parse_places (source : String) (tree : ParseTree)
    (h : parseInsert source = .ok tree ∨ parseUpdate source = .ok tree) :
    ∃ ts, tokenize source = .ok ts ∧ tree.source = source.toList ∧
      (∀ n ∈ tree.root.preorder,
        (∃ t, ts[n.tokenIndex]? = some t ∧ t.start = n.start) ∧
        (∃ t ∈ ts, t.kind ≠ .endOfText ∧ t.stop = n.stop) ∧
        (∃ cs, cs ≠ [] ∧ Text.slice? n.start n.stop tree.source = some cs ∧
          tree.text n = String.ofList cs) ∧
        (n.children.Pairwise fun a b => a.stop ≤ b.start) ∧
        ∀ child ∈ n.children, n.start ≤ child.start ∧ child.stop ≤ n.stop) ∧
      ((tree.root.preorder.filter fun n => decide (n.production = .unaryExpression)).map
        Node.tokenIndex).Nodup ∧
      ((tree.root.preorder.filter fun n => n.production.isFunction).map
        Node.tokenIndex).Nodup := by
  obtain ⟨ts, hlex, hsource, hcovers⟩ := covers_of_parse h
  have hpreorder : Node.preorderAll [tree.root] = tree.root.preorder := by
    rw [Node.preorderAll, Node.preorderAll, List.append_nil]
  have hnodup := nodup_index_of_lex hlex
  have hvalues := (hcovers.tags_sublist Node.one_per_token_value).nodup hnodup
  have hcalls := (hcovers.tags_sublist Node.one_per_token_function).nodup hnodup
  rw [Node.tags, hpreorder] at hvalues hcalls
  refine ⟨ts ++ [Lexer.endToken source.toList ts.length], by rw [tokenize, hlex]; rfl, hsource, ?_,
    hvalues, hcalls⟩
  intro n hn
  have hplaced := (hcovers.all_placed (in_order_of_lex hlex)).placed n (hpreorder ▸ hn)
  obtain ⟨t, ht, hindex, hstart⟩ := hplaced.first
  obtain ⟨u, hu, hstop⟩ := hplaced.last
  obtain ⟨c, text, rest, -, -, hscan⟩ := Lexer.scan_of_lex hlex hu
  have hstands := Lexer.stands_in_of_lex hlex
  have hlt := hplaced.filled
  rw [← hstart, ← hstop] at hlt
  obtain ⟨cs, hcs, hslice⟩ := Text.slice_across (hstands t ht) (hstands u hu) hlt
  rw [hstart, hstop, ← hsource] at hslice
  refine ⟨⟨t, ?_, hstart⟩, ⟨u, List.mem_append_left _ hu, Lexer.kind_of_scan hscan, hstop⟩,
    ⟨cs, hcs, hslice, ?_⟩, hplaced.apart, hplaced.inside⟩
  · obtain ⟨i, hi, rfl⟩ := List.mem_iff_getElem.mp ht
    have hat := Lexer.index_of_lex hlex (List.getElem?_eq_getElem hi)
    rw [← hindex, hat, List.getElem?_append_left hi, List.getElem?_eq_getElem hi]
  · rw [ParseTree.text, Node.text, hslice]
    rfl

def nestedUpdate : String :=
  "update t set a=f(g(1),-2) where not (b)=2"

theorem parse_update_nested_update :
    ∃ tree, parseUpdate nestedUpdate = .ok tree ∧
      (∃ ts, tokenize nestedUpdate = .ok ts ∧ ∀ n ∈ tree.root.preorder,
        ∃ t, ts[n.tokenIndex]? = some t ∧ t.start = n.start) ∧
      (tree.root.preorder.filter fun n => decide (n.production = .unaryExpression)).map
        Node.tokenIndex = [5, 7, 9, 12, 18, 21] ∧
      (tree.root.preorder.filter fun n => n.production.isFunction).map Node.tokenIndex =
        [5, 7] := by
  have htags : (parseUpdate nestedUpdate).toOption.map (fun tree =>
      ((tree.root.preorder.filter fun n => decide (n.production = .unaryExpression)).map
          Node.tokenIndex,
        (tree.root.preorder.filter fun n => n.production.isFunction).map Node.tokenIndex)) =
      some ([5, 7, 9, 12, 18, 21], [5, 7]) := by
    decide +kernel
  obtain ⟨tree, htree, hindices⟩ := ok_of_to_option_map htags
  obtain ⟨hvalues, hcalls⟩ := Prod.mk.inj hindices
  obtain ⟨ts, hts, -, hnodes, -, -⟩ := parse_places nestedUpdate tree (Or.inr htree)
  exact ⟨tree, htree, ⟨ts, hts, fun n hn => (hnodes n hn).1⟩, hvalues, hcalls⟩

end RedoLog
