import UbgoLogger.Core.SlogTree

namespace UbgoLogger.Slog

open Foundation Foundation.Text

variable {χ : Type}

def Node.key : Node χ → Bytes
  | .leaf key _ => key
  | .group key _ => key

def Node.children : Node χ → List (Node χ)
  | .leaf _ _ => []
  | .group _ ns => ns

def keys (ns : List (Node χ)) : List Bytes := ns.map Node.key

-- m[k] = f(m[k]), keeping the order in which keys were first set.
def update (k : Bytes) (f : Option (Node χ) → Node χ) : List (Node χ) → List (Node χ)
  | [] => [f none]
  | n :: ns => if n.key = k then f (some n) :: ns else n :: update k f ns

-- The loop of unflatten over the parts of one key: a part that is no map yet becomes one.
def place (v : Boxed χ) : List Bytes → List (Node χ) → List (Node χ)
  | [], ns => ns
  | [k], ns => update k (fun _ => .leaf k v) ns
  | k :: k' :: path, ns =>
      update k (fun n => .group k (place v (k' :: path) ((n.map Node.children).getD []))) ns

-- unflatten of the conformance test, for the fields in their order
def unflatten (localOffset : Int → Int) (fs : List (Field χ)) : List (Node χ) :=
  fs.foldl (fun ns f => place (f.value localOffset) (f.key.splitOn 46) ns) []

-- The fields below the prefix, under their own keys.
def strip (pfx : Bytes) (fs : List (Field χ)) : List (Field χ) :=
  fs.map fun f => { f with key := f.key.drop pfx.length }

def fieldsOf (pfx : Bytes) (as : List (Attr χ)) : List (Field χ) :=
  appendAttrs (fun fs f => fs ++ [f]) [] pfx as

def Segment (key : Bytes) : Prop := key ≠ [] ∧ 46 ∉ key

def Attr.key : Attr χ → Bytes
  | .mk key _ => key

-- Keys are non-empty and dot-free, siblings have distinct keys and no group is empty.
mutual

def Value.Proper : Value χ → Prop
  | .boxed _ => True
  | .group gs => gs ≠ [] ∧ ProperAttrs gs
  | .logValuer v => v.Proper

def Attr.Proper : Attr χ → Prop
  | .mk key v => Segment key ∧ v.Proper

def ProperAttrs : List (Attr χ) → Prop
  | [] => True
  | a :: as => a.Proper ∧ a.key ∉ as.map Attr.key ∧ ProperAttrs as

end

mutual

def Node.Proper : Node χ → Prop
  | .leaf key _ => Segment key
  | .group key ns => Segment key ∧ ns ≠ [] ∧ ProperNodes ns

def ProperNodes : List (Node χ) → Prop
  | [] => True
  | n :: ns => n.Proper ∧ n.key ∉ keys ns ∧ ProperNodes ns

end

mutual

def mapNode (f : Boxed χ → Boxed χ) : Node χ → Node χ
  | .leaf key v => .leaf key (f v)
  | .group key ns => .group key (mapNodes f ns)

def mapNodes (f : Boxed χ → Boxed χ) : List (Node χ) → List (Node χ)
  | [] => []
  | n :: ns => mapNode f n :: mapNodes f ns

end

section Place

variable {k : Bytes} {v : Boxed χ} {acc ns : List (Node χ)}

theorem update_of_new (f : Option (Node χ) → Node χ) (h : k ∉ keys acc) :
    update k f acc = acc ++ [f none] := by
  induction acc with
  | nil => rfl
  | cons n acc ih =>
    obtain ⟨hn, hacc⟩ := not_or.mp fun hk => h (List.mem_cons.mpr hk)
    rw [update, if_neg (Ne.symm hn), ih hacc, List.cons_append]

theorem update_last (f : Option (Node χ) → Node χ) (h : k ∉ keys acc) {n : Node χ} (hn : n.key = k) :
    update k f (acc ++ [n]) = acc ++ [f (some n)] := by
  induction acc with
  | nil => rw [List.nil_append, update, if_pos hn, List.nil_append]
  | cons m acc ih =>
    obtain ⟨hm, hacc⟩ := not_or.mp fun hk => h (List.mem_cons.mpr hk)
    rw [List.cons_append, update, if_neg (Ne.symm hm), ih hacc, List.cons_append]

def put (ns : List (Node χ)) (leaf : List Bytes × Boxed χ) : List (Node χ) :=
  place leaf.2 leaf.1 ns

theorem put_below_new (h : k ∉ keys acc) {path : List Bytes} (hpath : path ≠ []) :
    put acc (k :: path, v) = acc ++ [.group k (put [] (path, v))] := by
  obtain ⟨k', path, rfl⟩ := List.exists_cons_of_ne_nil hpath
  exact update_of_new _ h

theorem put_below_last (h : k ∉ keys acc) {path : List Bytes} (hpath : path ≠ []) :
    put (acc ++ [.group k ns]) (k :: path, v) = acc ++ [.group k (put ns (path, v))] := by
  obtain ⟨k', path, rfl⟩ := List.exists_cons_of_ne_nil hpath
  exact update_last _ h rfl

def below (k : Bytes) (leaf : List Bytes × Boxed χ) : List Bytes × Boxed χ := (k :: leaf.1, leaf.2)

theorem foldl_put_below_last (h : k ∉ keys acc) {ls : List (List Bytes × Boxed χ)}
    (hls : ∀ leaf ∈ ls, leaf.1 ≠ []) :
    (ls.map (below k)).foldl put (acc ++ [.group k ns]) = acc ++ [.group k (ls.foldl put ns)] := by
  induction ls generalizing ns with
  | nil => rfl
  | cons leaf ls ih =>
    obtain ⟨hleaf, hls⟩ := List.forall_mem_cons.mp hls
    rw [List.map_cons, List.foldl_cons, List.foldl_cons, below, put_below_last h hleaf, ih hls]

theorem foldl_put_below (h : k ∉ keys acc) {ls : List (List Bytes × Boxed χ)} (hne : ls ≠ [])
    (hls : ∀ leaf ∈ ls, leaf.1 ≠ []) :
    (ls.map (below k)).foldl put acc = acc ++ [.group k (ls.foldl put [])] := by
  obtain ⟨leaf, ls, rfl⟩ := List.exists_cons_of_ne_nil hne
  obtain ⟨hleaf, hls⟩ := List.forall_mem_cons.mp hls
  rw [List.map_cons, List.foldl_cons, List.foldl_cons, below, put_below_new h hleaf,
    foldl_put_below_last h hls]

end Place

section Leaves

mutual

theorem nodeLeaves_below (k : Bytes) (path : List Bytes) :
    ∀ n : Node χ, nodeLeaves (k :: path) n = (nodeLeaves path n).map (below k)
  | .leaf _ _ => rfl
  | .group key ns => leaves_below k (path ++ [key]) ns

theorem leaves_below (k : Bytes) (path : List Bytes) :
    ∀ ns : List (Node χ), leaves (k :: path) ns = (leaves path ns).map (below k)
  | [] => rfl
  | n :: ns => by
    rw [leaves, leaves, nodeLeaves_below k path n, leaves_below k path ns, List.map_append]

end

mutual

-- Every part of the path of a leaf is dot-free, and there is one.
theorem Node.Proper.path {path : List Bytes} (hpath : ∀ k ∈ path, 46 ∉ k) :
    ∀ {n : Node χ}, n.Proper → ∀ leaf ∈ nodeLeaves path n, leaf.1 ≠ [] ∧ ∀ k ∈ leaf.1, 46 ∉ k
  | .leaf key v, h, leaf, hleaf => by
    rw [List.mem_singleton.mp hleaf]
    refine ⟨List.concat_ne_nil _ _, fun k hk => ?_⟩
    rcases List.mem_append.mp hk with hk | hk
    · exact hpath k hk
    · exact List.mem_singleton.mp hk ▸ h.2
  | .group key ns, h, leaf, hleaf => by
    refine ProperNodes.path (fun k hk => ?_) h.2.2 leaf hleaf
    rcases List.mem_append.mp hk with hk | hk
    · exact hpath k hk
    · exact List.mem_singleton.mp hk ▸ h.1.2

theorem ProperNodes.path {path : List Bytes} (hpath : ∀ k ∈ path, 46 ∉ k) :
    ∀ {ns : List (Node χ)}, ProperNodes ns →
      ∀ leaf ∈ leaves path ns, leaf.1 ≠ [] ∧ ∀ k ∈ leaf.1, 46 ∉ k
  | [], _, _, hleaf => nomatch hleaf
  | n :: ns, h, leaf, hleaf => by
    rcases List.mem_append.mp hleaf with hleaf | hleaf
    · exact h.1.path hpath leaf hleaf
    · exact ProperNodes.path hpath h.2.2 leaf hleaf

end

mutual

theorem Node.Proper.leaves_ne_nil (path : List Bytes) :
    ∀ {n : Node χ}, n.Proper → nodeLeaves path n ≠ []
  | .leaf _ _, _ => List.cons_ne_nil _ _
  | .group _ _, h => ProperNodes.leaves_ne_nil _ h.2.1 h.2.2

theorem ProperNodes.leaves_ne_nil (path : List Bytes) :
    ∀ {ns : List (Node χ)}, ns ≠ [] → ProperNodes ns → leaves path ns ≠ []
  | [], h, _ => absurd rfl h
  | _ :: _, _, h => fun he => h.1.leaves_ne_nil path (List.append_eq_nil_iff.mp he).1

end

theorem keys_append (ms ns : List (Node χ)) : keys (ms ++ ns) = keys ms ++ keys ns :=
  List.map_append

mutual

theorem Node.Proper.foldl_put {acc : List (Node χ)} :
    ∀ {n : Node χ}, n.Proper → n.key ∉ keys acc →
      (nodeLeaves [] n).foldl put acc = acc ++ [n]
  | .leaf key v, _, hnew => update_of_new _ hnew
  | .group key ns, h, hnew => by
    have hkey : key ∉ keys acc := hnew
    have hpaths : ∀ leaf ∈ leaves [] ns, leaf.1 ≠ [] :=
      fun leaf hleaf => (ProperNodes.path (fun _ hk => absurd hk List.not_mem_nil) h.2.2 leaf hleaf).1
    rw [nodeLeaves, List.nil_append, leaves_below key [] ns,
      foldl_put_below hkey (ProperNodes.leaves_ne_nil [] h.2.1 h.2.2) hpaths,
      ProperNodes.foldl_put h.2.2 fun _ _ => List.not_mem_nil, List.nil_append]

-- Putting the leaves of proper siblings under new keys adds the siblings, in order.
theorem ProperNodes.foldl_put {acc : List (Node χ)} :
    ∀ {ns : List (Node χ)}, ProperNodes ns → (∀ n ∈ ns, n.key ∉ keys acc) →
      (leaves [] ns).foldl put acc = acc ++ ns
  | [], _, _ => (List.append_nil acc).symm
  | n :: ns, h, hnew => by
    obtain ⟨hn, hns⟩ := List.forall_mem_cons.mp hnew
    have hrest : ∀ m ∈ ns, m.key ∉ keys (acc ++ [n]) := by
      intro m hm hmem
      rw [keys_append] at hmem
      rcases List.mem_append.mp hmem with hmem | hmem
      · exact hns m hm hmem
      · exact h.2.1 (List.mem_singleton.mp hmem ▸ List.mem_map_of_mem hm)
    rw [leaves, List.foldl_append, h.1.foldl_put hn, ProperNodes.foldl_put h.2.2 hrest,
      List.append_assoc, List.singleton_append]

end

end Leaves

section Map

variable (f : Boxed χ → Boxed χ)

def mapLeaf (leaf : List Bytes × Boxed χ) : List Bytes × Boxed χ := (leaf.1, f leaf.2)

theorem key_mapNode : ∀ n : Node χ, (mapNode f n).key = n.key
  | .leaf _ _ => rfl
  | .group _ _ => rfl

theorem mapNodes_eq_map (ns : List (Node χ)) : mapNodes f ns = ns.map (mapNode f) := by
  induction ns with
  | nil => rfl
  | cons n ns ih => rw [mapNodes, ih, List.map_cons]

theorem keys_mapNodes (ns : List (Node χ)) : keys (mapNodes f ns) = keys ns := by
  rw [mapNodes_eq_map, keys, List.map_map]
  exact List.map_congr_left fun n _ => key_mapNode f n

mutual

theorem Node.Proper.mapNode : ∀ {n : Node χ}, n.Proper → (Slog.mapNode f n).Proper
  | .leaf _ _, h => h
  | .group _ ns, h => by
    refine ⟨h.1, ?_, ProperNodes.mapNodes h.2.2⟩
    rw [mapNodes_eq_map, ne_eq, List.map_eq_nil_iff]
    exact h.2.1

theorem ProperNodes.mapNodes : ∀ {ns : List (Node χ)}, ProperNodes ns → ProperNodes (Slog.mapNodes f ns)
  | [], _ => trivial
  | n :: ns, h => by
    refine ⟨h.1.mapNode, ?_, ProperNodes.mapNodes h.2.2⟩
    rw [key_mapNode, keys_mapNodes]
    exact h.2.1

end

mutual

theorem nodeLeaves_mapNode (path : List Bytes) :
    ∀ n : Node χ, nodeLeaves path (mapNode f n) = (nodeLeaves path n).map (mapLeaf f)
  | .leaf _ _ => rfl
  | .group key ns => leaves_mapNodes (path ++ [key]) ns

theorem leaves_mapNodes (path : List Bytes) :
    ∀ ns : List (Node χ), leaves path (mapNodes f ns) = (leaves path ns).map (mapLeaf f)
  | [] => rfl
  | n :: ns => by
    rw [mapNodes, leaves, leaves, nodeLeaves_mapNode path n, leaves_mapNodes path ns,
      List.map_append]

end

end Map

section Attributes

theorem isZero_of_ne {key : Bytes} (h : key ≠ []) (v : Boxed χ) : isZero key v = false := by
  unfold isZero
  split
  · simpa using h
  · rfl

mutual

theorem Value.Proper.tree {key : Bytes} (hkey : Segment key) :
    ∀ {v : Value χ}, v.Proper → ∃ n, valueTree key v = [n] ∧ n.key = key ∧ n.Proper
  | .logValuer v, h => Value.Proper.tree (v := v) hkey h
  | .boxed v, _ => by
    refine ⟨.leaf key v, ?_, rfl, hkey⟩
    rw [valueTree, isZero_of_ne hkey.1]
    rfl
  | .group gs, h => by
    obtain ⟨hkeys, hproper⟩ := ProperAttrs.tree h.2
    have hne : Slog.tree gs ≠ [] := by
      intro hnil
      rw [hnil] at hkeys
      exact h.1 (List.map_eq_nil_iff.mp hkeys.symm)
    refine ⟨.group key (Slog.tree gs), ?_, rfl, hkey, hne, hproper⟩
    rw [valueTree, if_neg hkey.1]
    cases hgs : Slog.tree gs with
    | nil => exact absurd hgs hne
    | cons n ns => rfl

theorem Attr.Proper.tree :
    ∀ {a : Attr χ}, a.Proper → ∃ n, attrTree a = [n] ∧ n.key = a.key ∧ n.Proper
  | .mk _ v, h => Value.Proper.tree (v := v) h.1 h.2

theorem ProperAttrs.tree : ∀ {as : List (Attr χ)}, ProperAttrs as →
    keys (Slog.tree as) = as.map Attr.key ∧ ProperNodes (Slog.tree as)
  | [], _ => ⟨rfl, trivial⟩
  | a :: as, h => by
    obtain ⟨n, hn, hkey, hproper⟩ := h.1.tree
    obtain ⟨hkeys, hrest⟩ := ProperAttrs.tree h.2.2
    rw [Slog.tree, hn, List.singleton_append]
    refine ⟨?_, hproper, ?_, hrest⟩
    · rw [List.map_cons, ← hkeys, ← hkey]
      rfl
    · rw [hkeys, hkey]
      exact h.2.1

end

def under (pfx : Bytes) (f : Field χ) : Field χ := { f with key := pfx ++ f.key }

theorem leafField_append (pfx key : Bytes) (v : Boxed χ) :
    leafField (pfx ++ key) v = under pfx (leafField key v) := by
  cases v <;> rfl

mutual

theorem flattenValue_append (p q key : Bytes) :
    ∀ v : Value χ, flattenValue (p ++ q) key v = (flattenValue q key v).map (under p)
  | .logValuer v => flattenValue_append p q key v
  | .boxed v => by
    rw [flattenValue, flattenValue, List.append_assoc, leafField_append]
    split <;> rfl
  | .group gs => by
    rw [flattenValue, flattenValue]
    split
    · exact flattenAttrs_append_prefix p q gs
    · rw [List.append_assoc, List.append_assoc, ← List.append_assoc q]
      exact flattenAttrs_append_prefix p _ gs

theorem flattenAttr_append (p q : Bytes) :
    ∀ a : Attr χ, flattenAttr (p ++ q) a = (flattenAttr q a).map (under p)
  | .mk key v => flattenValue_append p q key v

theorem flattenAttrs_append_prefix (p q : Bytes) :
    ∀ as : List (Attr χ), flattenAttrs (p ++ q) as = (flattenAttrs q as).map (under p)
  | [] => rfl
  | a :: as => by
    rw [flattenAttrs, flattenAttr_append p q a, flattenAttrs_append_prefix p q as, flattenAttrs,
      List.map_append]

end

theorem foldl_concat (dst fs : List (Field χ)) : fs.foldl (fun fs f => fs ++ [f]) dst = dst ++ fs := by
  induction fs generalizing dst with
  | nil => exact (List.append_nil dst).symm
  | cons f fs ih => rw [List.foldl_cons, ih, List.append_assoc, List.singleton_append]

theorem fieldsOf_eq (pfx : Bytes) (as : List (Attr χ)) :
    fieldsOf pfx as = (flattenAttrs [] as).map (under pfx) := by
  rw [fieldsOf, appendAttrs_eq_foldl, foldl_concat, List.nil_append,
    ← flattenAttrs_append_prefix pfx [], List.append_nil]

theorem strip_fieldsOf (pfx : Bytes) (as : List (Attr χ)) :
    strip pfx (fieldsOf pfx as) = flattenAttrs [] as := by
  rw [fieldsOf_eq, strip, List.map_map]
  exact List.map_id'' (fun f => by simp [under]) _

end Attributes

section Inverse

variable (localOffset : Int → Int)

-- What a field gives back of the value it was made from.
def readBack (v : Boxed χ) : Boxed χ := (leafField [] v).value localOffset

theorem value_leafField (key : Bytes) (v : Boxed χ) :
    (leafField key v).value localOffset = readBack localOffset v := by
  cases v <;> rfl

theorem unflatten_flattenAttrs {as : List (Attr χ)} (h : ProperAttrs as) :
    unflatten localOffset (flattenAttrs [] as) = mapNodes (readBack localOffset) (tree as) := by
  have hproper := h.tree.2
  have hflat : flattenAttrs [] as = (leaves [] (tree as)).map leafOf := flattenAttrs_eq_leaves [] as
  have hput : ∀ ns, ∀ leaf ∈ leaves [] (tree as),
      place ((leafOf leaf).value localOffset) ((leafOf leaf).key.splitOn 46) ns =
        put ns (mapLeaf (readBack localOffset) leaf) := by
    intro ns leaf hleaf
    obtain ⟨hne, hdots⟩ := hproper.path (fun _ hk => absurd hk List.not_mem_nil) leaf hleaf
    rw [leafOf, value_leafField, leafField_key]
    exact congrArg (fun path => place _ path ns) (List.splitOn_intercalate 46 hdots hne)
  rw [unflatten, hflat, List.foldl_map, List.foldl_ext _ _ _ hput, ← List.foldl_map,
    ← leaves_mapNodes, (hproper.mapNodes (readBack localOffset)).foldl_put fun _ _ =>
      List.not_mem_nil, List.nil_append]

-- Times are compared by their instant, as slog compares them.
def forgetZone : Boxed χ → Boxed χ
  | .time t => .time { t with offset := 0 }
  | v => v

theorem forgetZone_eq_iff (v w : Boxed χ) : forgetZone v = forgetZone w ↔ Same v w := by
  cases v <;> cases w <;> simp [forgetZone, Same]

def SameTree (ms ns : List (Node χ)) : Prop := mapNodes forgetZone ms = mapNodes forgetZone ns

mutual

theorem mapNode_eq_iff {f g : Boxed χ → Boxed χ} (path : List Bytes) :
    ∀ n : Node χ, mapNode f n = mapNode g n ↔ ∀ leaf ∈ nodeLeaves path n, f leaf.2 = g leaf.2
  | .leaf key v => by simp [mapNode, nodeLeaves]
  | .group key ns => by
    rw [mapNode, mapNode, nodeLeaves, ← mapNodes_eq_iff (path ++ [key]) ns]
    simp

theorem mapNodes_eq_iff {f g : Boxed χ → Boxed χ} (path : List Bytes) :
    ∀ ns : List (Node χ), mapNodes f ns = mapNodes g ns ↔ ∀ leaf ∈ leaves path ns, f leaf.2 = g leaf.2
  | [] => by simp [mapNodes, leaves]
  | n :: ns => by
    rw [mapNodes, mapNodes, leaves, List.forall_mem_append, ← mapNode_eq_iff path n,
      ← mapNodes_eq_iff path ns, List.cons.injEq]

end

mutual

theorem mapNode_mapNode (f g : Boxed χ → Boxed χ) :
    ∀ n : Node χ, mapNode f (mapNode g n) = mapNode (f ∘ g) n
  | .leaf _ _ => rfl
  | .group key ns => congrArg (Node.group key) (mapNodes_mapNodes f g ns)

theorem mapNodes_mapNodes (f g : Boxed χ → Boxed χ) :
    ∀ ns : List (Node χ), mapNodes f (mapNodes g ns) = mapNodes (f ∘ g) ns
  | [] => rfl
  | n :: ns => by rw [mapNodes, mapNodes, mapNodes, mapNode_mapNode f g n, mapNodes_mapNodes f g ns]

end

-- Every time in the tree is within the range of UnixNano.
def InRange (as : List (Attr χ)) : Prop := ∀ leaf ∈ leaves [] (tree as), Fits leaf.2

theorem sameTree_readBack_iff (as : List (Attr χ)) :
    SameTree (mapNodes (readBack localOffset) (tree as)) (tree as) ↔ InRange as := by
  rw [SameTree, mapNodes_mapNodes, mapNodes_eq_iff []]
  refine forall₂_congr fun leaf _ => ?_
  rw [Function.comp_apply, forgetZone_eq_iff]
  exact same_leafField_iff localOffset [] leaf.2

theorem flattening_invertible_iff {as : List (Attr χ)} (h : ProperAttrs as) (pfx : Bytes) :
    (SameTree (unflatten localOffset (strip pfx (fieldsOf pfx as))) (tree as) ↔ InRange as) ∧
    ∀ bs, ProperAttrs bs → InRange as → InRange bs → fieldsOf pfx as = fieldsOf pfx bs →
      SameTree (tree as) (tree bs) := by
  rw [strip_fieldsOf, unflatten_flattenAttrs localOffset h]
  refine ⟨sameTree_readBack_iff localOffset as, fun bs hbs has hbs' heq => ?_⟩
  have hread : mapNodes (readBack localOffset) (tree as) = mapNodes (readBack localOffset) (tree bs) := by
    rw [← unflatten_flattenAttrs localOffset h, ← unflatten_flattenAttrs localOffset hbs,
      ← strip_fieldsOf pfx as, ← strip_fieldsOf pfx bs, heq]
  calc mapNodes forgetZone (tree as)
      = mapNodes forgetZone (mapNodes (readBack localOffset) (tree as)) :=
        ((sameTree_readBack_iff localOffset as).mpr has).symm
    _ = mapNodes forgetZone (mapNodes (readBack localOffset) (tree bs)) := by rw [hread]
    _ = mapNodes forgetZone (tree bs) := (sameTree_readBack_iff localOffset bs).mpr hbs'

end Inverse

def request (t : Time) : List (Attr Unit) :=
  [.mk (ascii "at") (.boxed (.time t)),
    .mk (ascii "req") (.group [.mk (ascii "id") (.boxed (.int64 7)),
      .mk (ascii "path") (.logValuer (.boxed (.string (ascii "/"))))])]

theorem request_proper (t : Time) : ProperAttrs (request t) := by
  simp [request, ProperAttrs, Attr.Proper, Value.Proper, Segment, Attr.key, ascii]

theorem flattening_invertible_iff_request :
    SameTree (unflatten (fun _ => 0) (strip (ascii "svc.") (fieldsOf (ascii "svc.") (request Time.epoch))))
      (tree (request Time.epoch)) := by
  refine (flattening_invertible_iff (fun _ => 0) (request_proper Time.epoch) (ascii "svc.")).1.mpr ?_
  have hleaves : leaves [] (tree (request Time.epoch)) =
      [([ascii "at"], .time Time.epoch), ([ascii "req", ascii "id"], .int64 7),
        ([ascii "req", ascii "path"], .string (ascii "/"))] := rfl
  rw [InRange, hleaves]
  simp [Fits, Time.epoch]

-- The zero time and the time in 1754 it comes back as.
def wrapped : Time := ⟨-6795364579, 128654848, 0, by decide⟩

theorem two_trees_one_flattening :
    ProperAttrs (request Time.zero) ∧ ProperAttrs (request wrapped) ∧
      fieldsOf [] (request Time.zero) = fieldsOf [] (request wrapped) ∧
      ¬ SameTree (tree (request Time.zero)) (tree (request wrapped)) ∧
      ¬ SameTree (unflatten (fun _ => 0) (fieldsOf [] (request Time.zero)))
        (tree (request Time.zero)) := by
  have hread : unflatten (fun _ => 0) (fieldsOf [] (request Time.zero)) = tree (request wrapped) := by
    rfl
  have hdiffer : ¬ SameTree (tree (request Time.zero)) (tree (request wrapped)) := by
    intro hsame
    simp [SameTree, request, tree, attrTree, valueTree, mapNodes, mapNode, forgetZone, isZero, Time.zero,
      wrapped] at hsame
  refine ⟨request_proper _, request_proper _, by decide +kernel, hdiffer, ?_⟩
  rw [hread]
  exact fun hsame => hdiffer hsame.symm

end UbgoLogger.Slog
