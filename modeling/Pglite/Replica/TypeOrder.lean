import Mathlib.Data.List.FinRange
import Pglite.Postorder
import Pglite.Replica.SchemaDelta

/-!
# The order of user types

`introspect_types` of `src/replica/backfill.rs` asks for the types that the published tables use,
collects what each of them needs, and lists them with `topo_order`, for `bootstrap_schema` to
create them in this order.

- **Used.** The closure query goes from a column to its type, and from a type to its element, base,
  sub and attribute types. It passes through array types, but only enums, composites, domains and
  ranges are returned, in any order.
- **Direct.** What a type needs is looked up among the returned types, so a need is only found when
  its type is a returned one, and not an array of it.
- **Left out.** The checks of a domain are texts here, as in the code. A domain whose CHECK itself names
  a user type (a cast to an enum, say) needs that type too; no such need is in `parts`.

The types come out in creation order, whatever the order of the answer, exactly if every type that
is needed through an array is needed directly as well, by way of others or not
(`in_order_iff`).
-/

namespace Pglite.Replica.TypeOrder

open Backfill Relation Postorder

/-! ## The catalog -/

/-- `typtype`. -/
inductive TypType
  | base
  | composite
  | domain
  | enum
  | range
  | other
  deriving DecidableEq

/-- An attribute of a composite type, with what `format_type` makes of its type. -/
structure Attribute where
  name : String
  typeSql : String
  typeOid : UInt32
  deriving DecidableEq

/-- What the queries read of a type. The attributes, labels and checks are in the order of the
queries. -/
structure PgType where
  oid : UInt32
  schema : String
  name : String
  typtype : TypType
  typelem : UInt32
  typbasetype : UInt32
  typnotnull : Bool
  baseSql : String
  rngsubtype : Option UInt32
  subtypeSql : String
  attributes : List Attribute
  labels : List String
  checks : List String
  deriving DecidableEq

/-- A column of a published table. It is not published itself when a column list leaves it out. -/
structure PgColumn where
  typeOid : UInt32
  published : Bool

/-- The upstream's types and the columns of its published tables. -/
structure TypeCatalog where
  types : List PgType
  columns : List PgColumn
  oids_nodup : (types.map PgType.oid).Nodup
  oids_ne_zero : ∀ t ∈ types, t.oid ≠ 0
  names_nodup : (types.map fun t => (t.schema, t.name)).Nodup

namespace PgType

/-- `typtype IN ('e', 'c', 'd', 'r')`. -/
def isUser (t : PgType) : Bool :=
  match t.typtype with
  | .enum | .composite | .domain | .range => true
  | .base | .other => false

/-- The types that the closure query goes on to. -/
def uses (t : PgType) : List UInt32 :=
  (t.typelem :: (if t.typtype = .domain then [t.typbasetype] else []) ++ t.rngsubtype.toList ++
    (if t.typtype = .composite then t.attributes.map Attribute.typeOid else [])).filter (· ≠ 0)

/-- The definition of the type. -/
def typeDef (t : PgType) : Option TypeDef :=
  match t.typtype with
  | .enum => some (.enum t.schema t.name t.labels)
  | .composite =>
    some (.composite t.schema t.name (t.attributes.map fun a => (a.name, a.typeSql)))
  | .domain => some (.domain t.schema t.name t.baseSql t.typnotnull t.checks)
  | .range => some (.range t.schema t.name t.subtypeSql)
  | .base | .other => none

/-- The types that the definition is made of, without those that the text of a check names. -/
def parts (t : PgType) : List UInt32 :=
  match t.typtype with
  | .composite => t.attributes.map Attribute.typeOid
  | .domain => [t.typbasetype]
  | .range => t.rngsubtype.toList
  | .enum | .base | .other => []

end PgType

/-! ## The queries -/

namespace TypeCatalog

variable (c : TypeCatalog)

/-- What the closure query finds. -/
inductive Used : UInt32 → Prop
  | column {col : PgColumn} : col ∈ c.columns → Used col.typeOid
  | type {t : PgType} {oid : UInt32} : t ∈ c.types → Used t.oid → oid ∈ t.uses → Used oid

/-- An answer to the closure query: the rows come in any order. -/
structure IsAnswer (rows : List PgType) : Prop where
  nodup : rows.Nodup
  mem_iff : ∀ t, t ∈ rows ↔ t ∈ c.types ∧ c.Used t.oid ∧ t.isUser = true

/-- An answer to one of the queries for attributes, labels and checks. -/
def rowsOf {α : Type} (f : PgType → List α) (oids : List UInt32) : List (UInt32 × α) :=
  ((c.types.filter fun t => decide (t.oid ∈ oids)).insertionSort fun t u => t.oid ≤ u.oid).flatMap
    fun t => (f t).map (t.oid, ·)

end TypeCatalog

/-- `entry(oid).or_default().push(…)` for all rows. -/
def grouped {α : Type} (rows : List (UInt32 × α)) (oid : UInt32) : List α :=
  (rows.filter fun row => decide (row.1 = oid)).map Prod.snd

/-! ## The order -/

/-- An element of `items`. -/
structure Item where
  oid : UInt32
  deps : List UInt32
  typeDef : TypeDef

/-- Why there is no list of types. -/
inductive TypeError
  | replicaConfig (message : String)
  /-- `unwrap` of a definition that was taken before. -/
  | panicked
  | outOfTurns
  deriving DecidableEq

/-- The index of an OID in `items` is the last one it is at. -/
def graph (items : List Item) : Postorder.Graph (Fin items.length) UInt32 where
  needs i := (items.get i).deps
  index oid := (List.finRange items.length).reverse.find? fun i =>
    decide ((items.get i).oid = oid)

/-- `defs[i].take().unwrap()` for all nodes in order. -/
def takeAll {n : Nat} : (Fin n → Option TypeDef) → List (Fin n) → Option (List TypeDef)
  | _, [] => some []
  | defs, i :: order =>
    (defs i).bind fun d => (takeAll (Function.update defs i none) order).map (d :: ·)

def cycleMessage (oid : UInt32) : String :=
  s!"cyclic user-defined type dependency involving type oid {oid.toNat}"

/-- `topo_order`. -/
def topoOrder (items : List Item) : Except TypeError (List TypeDef) :=
  match (graph items).postorder (2 * items.length) (List.finRange items.length) with
  | .error (.cycle i) => .error (.replicaConfig (cycleMessage (items.get i).oid))
  | .error .outOfTurns => .error .outOfTurns
  | .ok order =>
    match takeAll (fun i => some (items.get i).typeDef) order with
    | none => .error .panicked
    | some defs => .ok defs

/-- The item of a row. -/
def TypeCatalog.item (c : TypeCatalog) (rows : List PgType) (r : PgType) : Option Item :=
  let inSet (o : UInt32) := decide (o ≠ 0 ∧ o ∈ rows.map PgType.oid)
  let oidsOf (kind : TypType) := (rows.filter fun r => decide (r.typtype = kind)).map PgType.oid
  match r.typtype with
  | .enum =>
    let labels := grouped (c.rowsOf PgType.labels (oidsOf .enum)) r.oid
    some ⟨r.oid, [], .enum r.schema r.name labels⟩
  | .composite =>
    let attrs := grouped (c.rowsOf PgType.attributes (oidsOf .composite)) r.oid
    some ⟨r.oid, (attrs.map Attribute.typeOid).filter inSet,
      .composite r.schema r.name (attrs.map fun a => (a.name, a.typeSql))⟩
  | .domain =>
    let checks := grouped (c.rowsOf PgType.checks (oidsOf .domain)) r.oid
    some ⟨r.oid, if inSet r.typbasetype then [r.typbasetype] else [],
      .domain r.schema r.name r.baseSql r.typnotnull checks⟩
  | .range =>
    let rngsub := r.rngsubtype.getD 0
    some ⟨r.oid, if inSet rngsub then [rngsub] else [], .range r.schema r.name r.subtypeSql⟩
  | .base | .other => none

/-- `introspect_types`, when the closure query is answered by `rows`. -/
def TypeCatalog.introspectTypes (c : TypeCatalog) (rows : List PgType) :
    Except TypeError (List TypeDef) :=
  if rows = [] then .ok []
  else topoOrder (rows.filterMap (c.item rows))

/-! ## What is wanted -/

namespace TypeCatalog

variable (c : TypeCatalog)

/-- A user type, or an array of what names one. -/
inductive Names : UInt32 → PgType → Prop
  | self {t : PgType} : t ∈ c.types → t.isUser = true → Names t.oid t
  | array {a t : PgType} : a ∈ c.types → a.typtype = .base → Names a.typelem t → Names a.oid t

/-- The definition of a type refers to another one, directly or through an array type. -/
def RefersTo (a b : PgType) : Prop :=
  a ∈ c.types ∧ ∃ oid ∈ a.parts, c.Names oid b

/-- The definition of a type refers to another one, and not to an array of it. -/
def Direct (a b : PgType) : Prop :=
  a ∈ c.types ∧ b ∈ c.types ∧ b.isUser = true ∧ b.oid ∈ a.parts

/-- The user types that the published columns lead to. -/
inductive Reachable : PgType → Prop
  | column {col : PgColumn} {t : PgType} :
    col ∈ c.columns → col.published = true → c.Names col.typeOid t → Reachable t
  | type {a b : PgType} : Reachable a → c.RefersTo a b → Reachable b

/-- Types are created one after the other, and each finds what it refers to. -/
def Creates : List PgType → List PgType → Prop
  | _, [] => True
  | created, t :: ts => (∀ u, c.RefersTo t u → u ∈ created) ∧ Creates (created ++ [t]) ts

/-- The definitions are those of `order`, which has every reachable type once and none before
one that it refers to. -/
structure CreationOrder (defs : List TypeDef) (order : List PgType) : Prop where
  defs_eq : defs.map some = order.map PgType.typeDef
  mem_types : ∀ t ∈ order, t ∈ c.types
  nodup : order.Nodup
  complete : ∀ t, c.Reachable t → t ∈ order
  ordered : order.Pairwise fun a b => ¬ c.RefersTo a b
  creates : c.Creates [] order

/-- Whatever the order of the answer, the types come out in creation order. -/
def InOrder : Prop :=
  ∀ rows, c.IsAnswer rows →
    ∃ defs order, c.introspectTypes rows = .ok defs ∧ c.CreationOrder defs order

end TypeCatalog

/-! ## References -/

namespace TypeCatalog

variable {c : TypeCatalog} {rows : List PgType} {a b t : PgType} {oid : UInt32}

theorem Names.mem_types (h : c.Names oid t) : t ∈ c.types := by
  induction h with
  | self ht _ => exact ht
  | array _ _ _ ih => exact ih

theorem Names.isUser (h : c.Names oid t) : t.isUser = true := by
  induction h with
  | self _ huser => exact huser
  | array _ _ _ ih => exact ih

theorem Names.ne_zero (h : c.Names oid t) : oid ≠ 0 := by
  cases h with
  | self ht _ => exact c.oids_ne_zero t ht
  | array ha _ _ => exact c.oids_ne_zero _ ha

theorem Direct.refersTo (h : c.Direct a b) : c.RefersTo a b :=
  ⟨h.1, b.oid, h.2.2.2, .self h.2.1 h.2.2.1⟩

theorem mem_uses_of_parts (h : oid ∈ t.parts) (hne : oid ≠ 0) : oid ∈ t.uses := by
  refine List.mem_filter.2 ⟨?_, by simpa using hne⟩
  unfold PgType.parts at h
  split at h
  · next hkind => simpa [hkind] using .inr (.inr (List.mem_map.1 h))
  · next hkind => simp [hkind, List.mem_singleton.1 h]
  · simp [Option.mem_toList.1 h]
  all_goals cases h

theorem isUser_of_mem_parts (h : oid ∈ t.parts) : t.isUser = true := by
  unfold PgType.parts at h
  unfold PgType.isUser
  split at h
  · next hkind => rw [hkind]
  · next hkind => rw [hkind]
  · next hkind => rw [hkind]
  all_goals cases h

theorem Used.of_names (h : c.Used oid) (hnames : c.Names oid t) : c.Used t.oid := by
  induction hnames with
  | self _ _ => exact h
  | array ha _ hnames ih =>
    refine ih (.type ha h (List.mem_filter.2 ⟨List.mem_cons_self, ?_⟩))
    simpa using hnames.ne_zero

/-- What a used type refers to is used. -/
theorem Used.of_refersTo (h : c.Used a.oid) (hab : c.RefersTo a b) : c.Used b.oid := by
  obtain ⟨ha, oid, hoid, hnames⟩ := hab
  exact Used.of_names (.type ha h (mem_uses_of_parts hoid hnames.ne_zero)) hnames

theorem RefersTo.mem_types (h : c.RefersTo a b) : b ∈ c.types := by
  obtain ⟨-, oid, -, hnames⟩ := h
  exact hnames.mem_types

theorem RefersTo.isUser (h : c.RefersTo a b) : b.isUser = true := by
  obtain ⟨-, oid, -, hnames⟩ := h
  exact hnames.isUser

theorem Reachable.used (h : c.Reachable t) : t ∈ c.types ∧ c.Used t.oid ∧ t.isUser = true := by
  induction h with
  | column hcol _ hnames =>
    exact ⟨hnames.mem_types, Used.of_names (.column hcol) hnames, hnames.isUser⟩
  | type _ hab ih => exact ⟨hab.mem_types, Used.of_refersTo ih.2.1 hab, hab.isUser⟩

theorem IsAnswer.mem_of_refersTo (h : c.IsAnswer rows) (ha : a ∈ rows) (hab : c.RefersTo a b) :
    b ∈ rows :=
  (h.mem_iff b).2 ⟨hab.mem_types, Used.of_refersTo ((h.mem_iff a).1 ha).2.1 hab, hab.isUser⟩

/-! ## Items -/

theorem grouped_map_self {α : Type} (oid : UInt32) (xs : List α) :
    grouped (xs.map (oid, ·)) oid = xs := by
  induction xs with
  | nil => rfl
  | cons x xs ih => simpa [grouped] using ih

theorem grouped_append {α : Type} (rows rows' : List (UInt32 × α)) (oid : UInt32) :
    grouped (rows ++ rows') oid = grouped rows oid ++ grouped rows' oid := by
  simp [grouped]

theorem grouped_eq_nil {α : Type} {rows : List (UInt32 × α)} (h : ∀ row ∈ rows, row.1 ≠ oid) :
    grouped rows oid = [] := by
  rw [grouped, List.map_eq_nil_iff, List.filter_eq_nil_iff]
  exact fun row hrow => by simpa using h row hrow

/-- The rows of a type are found again among those of all types. -/
theorem grouped_flatMap {α : Type} {f : PgType → List α} {ts : List PgType}
    (hoids : (ts.map PgType.oid).Nodup) (ht : t ∈ ts) :
    grouped (ts.flatMap fun t => (f t).map (t.oid, ·)) t.oid = f t := by
  induction ts with
  | nil => cases ht
  | cons u us ih =>
    rw [List.map_cons, List.nodup_cons] at hoids
    obtain ⟨hu, hus⟩ := hoids
    rw [List.flatMap_cons, grouped_append]
    rcases List.mem_cons.1 ht with rfl | ht
    · have hrest : grouped (us.flatMap fun t => (f t).map (t.oid, ·)) t.oid = [] := by
        refine grouped_eq_nil fun row hrow heq => hu ?_
        obtain ⟨v, hv, hrow⟩ := List.mem_flatMap.1 hrow
        obtain ⟨x, -, rfl⟩ := List.mem_map.1 hrow
        have hsame : v.oid = t.oid := heq
        exact hsame ▸ List.mem_map_of_mem hv
      rw [grouped_map_self, hrest, List.append_nil]
    · have hfirst : grouped ((f u).map (u.oid, ·)) t.oid = [] := by
        refine grouped_eq_nil fun row hrow heq => hu ?_
        obtain ⟨x, -, rfl⟩ := List.mem_map.1 hrow
        have hsame : u.oid = t.oid := heq
        exact hsame ▸ List.mem_map_of_mem ht
      rw [hfirst, List.nil_append, ih hus ht]

theorem grouped_rowsOf {α : Type} (f : PgType → List α) {oids : List UInt32} (ht : t ∈ c.types)
    (hoid : t.oid ∈ oids) : grouped (c.rowsOf f oids) t.oid = f t := by
  have hperm := List.perm_insertionSort (fun t u : PgType => t.oid ≤ u.oid)
    (c.types.filter fun t => decide (t.oid ∈ oids))
  refine grouped_flatMap ?_ (hperm.mem_iff.2 (List.mem_filter.2 ⟨ht, by simpa using hoid⟩))
  rw [(hperm.map PgType.oid).nodup_iff]
  exact c.oids_nodup.sublist (List.filter_sublist.map _)

/-- What a returned type needs of the other returned types, with its definition. -/
def itemOf (rows : List PgType) (t : PgType) : Item where
  oid := t.oid
  deps := t.parts.filter fun o => decide (o ≠ 0 ∧ o ∈ rows.map PgType.oid)
  typeDef := t.typeDef.getD (.enum t.schema t.name t.labels)

/-- The queries give each returned type its own attributes, labels and checks. -/
theorem item_eq (h : c.IsAnswer rows) (ht : t ∈ rows) : c.item rows t = some (itemOf rows t) := by
  obtain ⟨hmem, -, huser⟩ := (h.mem_iff t).1 ht
  have hoid : ∀ {kind : TypType}, t.typtype = kind →
      t.oid ∈ (rows.filter fun r => decide (r.typtype = kind)).map PgType.oid := by
    intro kind hkind
    exact List.mem_map_of_mem (List.mem_filter.2 ⟨ht, by simpa using hkind⟩)
  unfold item itemOf PgType.parts PgType.typeDef
  dsimp only
  cases hkind : t.typtype with
  | enum =>
    dsimp only
    rw [grouped_rowsOf PgType.labels hmem (hoid hkind)]
    rfl
  | composite =>
    dsimp only
    rw [grouped_rowsOf PgType.attributes hmem (hoid hkind)]
    rfl
  | domain =>
    dsimp only
    rw [grouped_rowsOf PgType.checks hmem (hoid hkind), List.filter_singleton]
    simp
  | range =>
    dsimp only
    cases t.rngsubtype with
    | none => simp
    | some sub => simp [List.filter_singleton]
  | base =>
    rw [PgType.isUser, hkind] at huser
    cases huser
  | other =>
    rw [PgType.isUser, hkind] at huser
    cases huser

theorem introspectTypes_eq (h : c.IsAnswer rows) :
    c.introspectTypes rows = topoOrder (rows.map (itemOf rows)) := by
  have hitems : rows.filterMap (c.item rows) = rows.map (itemOf rows) := by
    rw [← List.filterMap_eq_map]
    exact List.filterMap_congr fun t ht => item_eq h ht
  rw [introspectTypes, hitems]
  split
  · next hnil =>
    subst hnil
    rfl
  · rfl

end TypeCatalog

/-! ## Topological order -/

theorem takeAll_eq {n : Nat} {f : Fin n → TypeDef} {order : List (Fin n)} (hnodup : order.Nodup)
    {defs : Fin n → Option TypeDef} (h : ∀ i ∈ order, defs i = some (f i)) :
    takeAll defs order = some (order.map f) := by
  induction order generalizing defs with
  | nil => rfl
  | cons i order ih =>
    rw [List.nodup_cons] at hnodup
    obtain ⟨hi, hrest⟩ := List.forall_mem_cons.1 h
    have hothers : ∀ j ∈ order, Function.update defs i none j = some (f j) := by
      intro j hj
      have hne : j ≠ i := by
        rintro rfl
        exact hnodup.1 hj
      rw [Function.update_of_ne hne, hrest j hj]
    rw [takeAll, hi, Option.bind_some, ih hnodup.2 hothers]
    rfl

/-- `topo_order` lists the definitions in a post-order of the items, or finds a cycle. -/
theorem topoOrder_cases (items : List Item) :
    (∃ order, topoOrder items = .ok (order.map fun i => (items.get i).typeDef) ∧
      IsPostorder (graph items).Edge (List.finRange items.length) order) ∨
    ∃ node, topoOrder items = .error (.replicaConfig (cycleMessage (items.get node).oid)) ∧
      TransGen (graph items).Edge node node := by
  have hturns : 2 * Fintype.card (Fin items.length) ≤ 2 * items.length := by
    rw [Fintype.card_fin]
  rcases Postorder.Graph.postorder_cases (G := graph items) hturns (List.finRange items.length) with
    ⟨order, heq, horder⟩ | ⟨node, heq, hcycle⟩
  · refine .inl ⟨order, ?_, horder⟩
    rw [topoOrder, heq]
    dsimp only
    rw [takeAll_eq horder.nodup fun i _ => rfl]
  · refine .inr ⟨node, ?_, hcycle⟩
    rw [topoOrder, heq]

/-- A node needs another one if it lists its OID. -/
theorem edge_iff {items : List Item} (hoids : (items.map Item.oid).Nodup)
    (i j : Fin items.length) :
    (graph items).Edge i j ↔ (items.get j).oid ∈ (items.get i).deps := by
  have hindex : ∀ oid, (graph items).index oid = some j ↔ (items.get j).oid = oid := by
    intro oid
    constructor
    · intro h
      simpa using List.find?_some h
    · intro h
      cases hfind : (graph items).index oid with
      | none =>
        have hnone := List.find?_eq_none.1 hfind j (by simp)
        exact absurd h (by simpa using hnone)
      | some k =>
        have hk : (items.get k).oid = oid := by simpa using List.find?_some hfind
        have hsame := List.inj_on_of_nodup_map hoids (items.get_mem k) (items.get_mem j)
          (hk.trans h.symm)
        rw [List.nodup_iff_injective_get.1 hoids.of_map hsame]
  constructor
  · rintro ⟨d, hd, hj⟩
    rwa [(hindex d).1 hj]
  · intro h
    exact ⟨_, h, (hindex _).2 rfl⟩

/-- An item depends on another one. -/
def DependsOn (items : List Item) (x y : Item) : Prop :=
  x ∈ items ∧ y ∈ items ∧ y.oid ∈ x.deps

/-- `topo_order` fails exactly if the items depend on each other in a cycle, and with nothing but
the message on one that does. Otherwise all items are listed, each after those it depends on. -/
theorem topo_order_sorts (items : List Item) (hoids : (items.map Item.oid).Nodup) :
    ((∃ e, topoOrder items = .error e) ↔ ∃ x, TransGen (DependsOn items) x x) ∧
    (∀ e, topoOrder items = .error e →
      ∃ x, TransGen (DependsOn items) x x ∧ e = .replicaConfig (cycleMessage x.oid)) ∧
    ∀ defs, topoOrder items = .ok defs →
      ∃ order, defs = order.map Item.typeDef ∧ order.Perm items ∧
        Closed (DependsOn items) order := by
  have hedge : ∀ i y, DependsOn items (items.get i) y ↔
      ∃ j, items.get j = y ∧ (graph items).Edge i j := by
    intro i y
    constructor
    · rintro ⟨-, hy, hoid⟩
      obtain ⟨j, rfl⟩ := List.mem_iff_get.1 hy
      exact ⟨j, rfl, (edge_iff hoids i j).2 hoid⟩
    · rintro ⟨j, rfl, hj⟩
      exact ⟨items.get_mem i, items.get_mem j, (edge_iff hoids i j).1 hj⟩
  have hinj : Function.Injective items.get := List.nodup_iff_injective_get.1 hoids.of_map
  rcases topoOrder_cases items with ⟨order, heq, horder⟩ | ⟨node, heq, hcycle⟩
  · have hmap := horder.map hinj hedge
    rw [List.map_get_finRange] at hmap
    have hnone : ¬ ∃ x, TransGen (DependsOn items) x x := by
      rintro ⟨x, hx⟩
      obtain ⟨y, hxy, -⟩ := TransGen.head'_iff.1 hx
      exact hmap.not_cyclic ((hmap.mem_iff x).2 ⟨x, hxy.1, .refl⟩) hx
    have hok : ∀ e, topoOrder items ≠ .error e := by
      intro e herror
      rw [heq] at herror
      cases herror
    refine ⟨⟨fun ⟨e, he⟩ => absurd he (hok e), fun h => absurd h hnone⟩,
      fun e he => absurd he (hok e), fun defs hdefs => ?_⟩
    obtain rfl := Except.ok.inj (heq.symm.trans hdefs)
    refine ⟨order.map items.get, ?_, ?_, hmap.closed⟩
    · rw [List.map_map]
      rfl
    · refine (List.perm_ext_iff_of_nodup hmap.nodup hoids.of_map).2 fun x => ?_
      rw [hmap.mem_iff]
      constructor
      · rintro ⟨start, hstart, hpath⟩
        cases hpath with
        | refl => exact hstart
        | tail _ hlast => exact hlast.2.1
      · exact fun hx => ⟨x, hx, .refl⟩
  · have hx : TransGen (DependsOn items) (items.get node) (items.get node) :=
      hcycle.lift items.get fun i j hij => (hedge i _).2 ⟨j, rfl, hij⟩
    refine ⟨⟨fun _ => ⟨_, hx⟩, fun _ => ⟨_, heq⟩⟩, fun e he => ?_, fun defs hdefs => ?_⟩
    · exact ⟨_, hx, Except.error.inj (he.symm.trans heq)⟩
    · rw [heq] at hdefs
      cases hdefs

/-- Three items that share one, an unknown OID and a dependency that is listed twice. -/
def shared : List Item :=
  [⟨3, [2, 1, 2, 9], .enum "public" "c" []⟩, ⟨1, [], .enum "public" "a" []⟩,
    ⟨2, [1], .enum "public" "b" []⟩]

theorem topo_order_sorts_shared : ∃ order,
    [TypeDef.enum "public" "a" [], .enum "public" "b" [], .enum "public" "c" []] =
      order.map Item.typeDef ∧ order.Perm shared ∧ Closed (DependsOn shared) order :=
  (topo_order_sorts shared (by decide)).2.2 _ rfl

namespace TypeCatalog

variable {c : TypeCatalog} {rows : List PgType} {a b t : PgType}

theorem Direct.mem_iff (h : c.IsAnswer rows) (ha : a ∈ rows) :
    c.Direct a b ↔ b ∈ rows ∧ b.oid ∈ (itemOf rows a).deps := by
  constructor
  · intro hab
    have hb := h.mem_of_refersTo ha hab.refersTo
    have hne := c.oids_ne_zero b hab.2.1
    exact ⟨hb, List.mem_filter.2 ⟨hab.2.2.2, by simpa using ⟨hne, b, hb, rfl⟩⟩⟩
  · rintro ⟨hb, hoid⟩
    obtain ⟨hmem, -, huser⟩ := (h.mem_iff b).1 hb
    exact ⟨((h.mem_iff a).1 ha).1, hmem, huser, (List.mem_filter.1 hoid).1⟩

/-- The returned types are listed in a post-order of what they need directly. -/
theorem introspectTypes_postorder (h : c.IsAnswer rows) (hacyclic : Acyclic c.RefersTo) :
    ∃ order, c.introspectTypes rows = .ok (order.map fun t => (itemOf rows t).typeDef) ∧
      IsPostorder c.Direct rows order := by
  have hlen : (rows.map (itemOf rows)).length = rows.length := List.length_map _
  let type (i : Fin (rows.map (itemOf rows)).length) : PgType := rows.get (i.cast hlen)
  have hitem : ∀ i, (rows.map (itemOf rows)).get i = itemOf rows (type i) := by
    intro i
    simp [type]
  have hrows : (List.finRange (rows.map (itemOf rows)).length).map type = rows := by
    refine List.ext_getElem (by simp) fun i h₁ h₂ => ?_
    simp [type]
  have hoids : (rows.map PgType.oid).Nodup := by
    refine List.Nodup.map_on ?_ h.nodup
    intro t ht u hu heq
    exact List.inj_on_of_nodup_map c.oids_nodup ((h.mem_iff t).1 ht).1 ((h.mem_iff u).1 hu).1 heq
  have hinj : Function.Injective type := by
    intro i j hij
    exact Fin.cast_injective hlen (List.nodup_iff_injective_get.1 h.nodup hij)
  have hedge : ∀ i b, c.Direct (type i) b ↔
      ∃ j, type j = b ∧ (graph (rows.map (itemOf rows))).Edge i j := by
    intro i b
    have hi : type i ∈ rows := rows.get_mem _
    have hitems : ((rows.map (itemOf rows)).map Item.oid).Nodup := by rwa [List.map_map]
    have hedge_iff := edge_iff hitems i
    rw [Direct.mem_iff h hi]
    constructor
    · rintro ⟨hb, hoid⟩
      rw [← hrows] at hb
      obtain ⟨j, -, rfl⟩ := List.mem_map.1 hb
      exact ⟨j, rfl, (hedge_iff j).2 (by rw [hitem, hitem]; exact hoid)⟩
    · rintro ⟨j, rfl, hj⟩
      have hoid := (hedge_iff j).1 hj
      rw [hitem, hitem] at hoid
      exact ⟨rows.get_mem _, hoid⟩
  have hdirect : Acyclic c.Direct := fun t ht =>
    hacyclic t (ht.lift id fun _ _ hab => Direct.refersTo hab)
  rcases topoOrder_cases (rows.map (itemOf rows)) with
    ⟨order, heq, horder⟩ | ⟨node, -, hcycle⟩
  swap
  · exact absurd hcycle (hdirect.of_map hedge node)
  have hmap := horder.map hinj hedge
  rw [hrows] at hmap
  refine ⟨order.map type, ?_, hmap⟩
  rw [introspectTypes_eq h, heq, List.map_map]
  refine congrArg _ (List.map_congr_left fun i _ => ?_)
  rw [hitem]
  rfl

/-! ## Creation order -/

theorem creates_iff {created order : List PgType} : c.Creates created order ↔
    ∀ pre t post, order = pre ++ t :: post → ∀ u, c.RefersTo t u → u ∈ created ++ pre := by
  induction order generalizing created with
  | nil => simp [Creates]
  | cons t ts ih =>
    rw [Creates, ih]
    constructor
    · rintro ⟨hfirst, hrest⟩ pre x post heq u hu
      cases pre with
      | nil =>
        obtain ⟨rfl, rfl⟩ := List.cons.inj heq
        exact List.mem_append_left _ (hfirst u hu)
      | cons y pre =>
        obtain ⟨rfl, rfl⟩ := List.cons.inj heq
        have hmem := hrest pre x post rfl u hu
        rwa [List.append_assoc, List.singleton_append] at hmem
    · intro hall
      refine ⟨fun u hu => by simpa using hall [] t ts rfl u hu, ?_⟩
      rintro pre x post rfl u hu
      rw [List.append_assoc, List.singleton_append]
      exact hall (t :: pre) x post rfl u hu

/-- A type that finds what it refers to does not refer to those that follow. -/
theorem Creates.pairwise {created order : List PgType} (hnodup : (created ++ order).Nodup)
    (h : c.Creates created order) : order.Pairwise fun a b => ¬ c.RefersTo a b := by
  induction order generalizing created with
  | nil => exact List.Pairwise.nil
  | cons t ts ih =>
    rw [List.append_cons] at hnodup
    refine List.Pairwise.cons (fun u hu hrefers => ?_) (ih hnodup h.2)
    have hcreated := List.mem_append_left [t] (h.1 u hrefers)
    exact (List.nodup_append.1 hnodup).2.2 u hcreated u hu rfl

theorem typeDef_itemOf (huser : t.isUser = true) :
    some (itemOf rows t).typeDef = t.typeDef := by
  unfold PgType.isUser at huser
  unfold itemOf PgType.typeDef
  dsimp only
  cases hkind : t.typtype with
  | enum | composite | domain | range => rfl
  | base | other =>
    rw [hkind] at huser
    cases huser

theorem key_eq_of_typeDef {d : TypeDef} (h : t.typeDef = some d) : d.key = (t.schema, t.name) := by
  unfold PgType.typeDef at h
  split at h
  all_goals cases h
  all_goals rfl

/-- The definitions tell which types they are of. -/
theorem eq_of_map_typeDef {defs : List TypeDef} {order order' : List PgType}
    (hdefs : defs.map some = order.map PgType.typeDef)
    (hdefs' : defs.map some = order'.map PgType.typeDef) (hmem : ∀ t ∈ order, t ∈ c.types)
    (hmem' : ∀ t ∈ order', t ∈ c.types) : order = order' := by
  induction order generalizing defs order' with
  | nil =>
    rw [hdefs'] at hdefs
    exact (List.map_eq_nil_iff.1 hdefs).symm
  | cons t ts ih =>
    cases defs with
    | nil => cases hdefs
    | cons d defs =>
      cases order' with
      | nil => cases hdefs'
      | cons t' ts' =>
        obtain ⟨ht, hts⟩ := List.cons.inj hdefs
        obtain ⟨ht', hts'⟩ := List.cons.inj hdefs'
        rw [List.forall_mem_cons] at hmem hmem'
        have hname := (key_eq_of_typeDef ht.symm).symm.trans (key_eq_of_typeDef ht'.symm)
        rw [List.inj_on_of_nodup_map c.names_nodup hmem.1 hmem'.1 hname,
          ih hts hts' hmem.2 hmem'.2]

/-- What is listed is what was returned. -/
theorem IsAnswer.mem_postorder {order : List PgType} (h : c.IsAnswer rows)
    (horder : IsPostorder c.Direct rows order) (t : PgType) : t ∈ order ↔ t ∈ rows := by
  rw [horder.mem_iff]
  constructor
  · rintro ⟨start, hstart, hpath⟩
    induction hpath with
    | refl => exact hstart
    | tail _ hlast ih => exact h.mem_of_refersTo ih hlast.refersTo
  · exact fun ht => ⟨t, ht, .refl⟩

theorem map_typeDef_itemOf {order : List PgType} (h : c.IsAnswer rows)
    (hrows : ∀ t ∈ order, t ∈ rows) :
    (order.map fun t => (itemOf rows t).typeDef).map some = order.map PgType.typeDef := by
  rw [List.map_map]
  refine List.map_congr_left fun t ht => ?_
  exact typeDef_itemOf ((h.mem_iff t).1 (hrows t ht)).2.2

/-- The listed types are in creation order when what is referred to is needed directly. -/
theorem creationOrder_of_direct {order : List PgType} (h : c.IsAnswer rows)
    (horder : IsPostorder c.Direct rows order)
    (hdirect : ∀ a b, c.Used a.oid → c.RefersTo a b → TransGen c.Direct a b) :
    c.CreationOrder (order.map fun t => (itemOf rows t).typeDef) order := by
  have hrows := h.mem_postorder horder
  have hcreates : c.Creates [] order := by
    rw [creates_iff]
    intro pre t post heq u hu
    have ht : t ∈ rows := (hrows t).1 (by rw [heq]; simp)
    have hpath := hdirect t u ((h.mem_iff t).1 ht).2.1 hu
    simpa using horder.closed.mem_of_transGen heq hpath
  refine ⟨map_typeDef_itemOf h fun t ht => (hrows t).1 ht, fun t ht => ?_, horder.nodup,
    fun t ht => ?_, ?_, hcreates⟩
  · exact ((h.mem_iff t).1 ((hrows t).1 ht)).1
  · exact (hrows t).2 ((h.mem_iff t).2 ht.used)
  · exact hcreates.pairwise (by simpa using horder.nodup)

/-- A used type that may need others comes first in some answer. -/
theorem exists_answer (ha : a ∈ c.types) (hused : c.Used a.oid) (huser : a.isUser = true) :
    ∃ others, c.IsAnswer (a :: others) := by
  classical
  refine ⟨c.types.filter fun t => decide (t ≠ a ∧ c.Used t.oid ∧ t.isUser = true), ?_, fun t => ?_⟩
  · rw [List.nodup_cons]
    exact ⟨by simp, c.oids_nodup.of_map.filter _⟩
  · by_cases hta : t = a
    · subst hta
      simp [ha, hused, huser]
    · simp [hta]

/-- The types come out in creation order exactly if all that a used type refers to, through an
array type or not, is needed directly as well. -/
theorem in_order_iff (c : TypeCatalog) (hacyclic : Acyclic c.RefersTo) :
    c.InOrder ↔ ∀ a b, c.Used a.oid → c.RefersTo a b → TransGen c.Direct a b := by
  constructor
  · intro hall a b hused hab
    have huser : a.isUser = true := by
      obtain ⟨-, oid, hoid, -⟩ := hab
      exact isUser_of_mem_parts hoid
    obtain ⟨others, h⟩ := exists_answer hab.1 hused huser
    obtain ⟨defs, order, hdefs, hcreation⟩ := hall _ h
    obtain ⟨listed, heq, hlisted⟩ := introspectTypes_postorder h hacyclic
    obtain ⟨new, more, hsplit, hnew⟩ := hlisted.first a others rfl
    have hrows : ∀ t ∈ listed, t ∈ a :: others := fun t ht => (h.mem_postorder hlisted t).1 ht
    obtain rfl := Except.ok.inj (hdefs.symm.trans heq)
    have hsame : order = listed := eq_of_map_typeDef hcreation.defs_eq
      (map_typeDef_itemOf h hrows) hcreation.mem_types fun t ht => ((h.mem_iff t).1 (hrows t ht)).1
    have hb := creates_iff.1 hcreation.creates new a more (hsame.trans hsplit) b hab
    exact hnew b (by simpa using hb)
  · intro hdirect rows h
    obtain ⟨order, heq, horder⟩ := introspectTypes_postorder h hacyclic
    exact ⟨_, order, heq, creationOrder_of_direct h horder hdirect⟩

/-! ## Two catalogs -/

theorem Names.oid_le (hgrow : ∀ t ∈ c.types, t.typtype = .base → t.typelem ≤ t.oid) {oid : UInt32}
    (h : c.Names oid t) : t.oid ≤ oid := by
  induction h with
  | self _ _ => exact UInt32.le_refl _
  | array ha hbase _ ih => exact UInt32.le_trans ih (hgrow _ ha hbase)

/-- A catalog without cycles: a type is younger than what it is made of. -/
structure Growing (c : TypeCatalog) : Prop where
  elements : ∀ t ∈ c.types, t.typtype = .base → t.typelem ≤ t.oid
  parts : ∀ t ∈ c.types, ∀ oid ∈ t.parts, oid < t.oid

theorem Growing.oid_lt (h : c.Growing) (hab : c.RefersTo a b) : b.oid < a.oid := by
  obtain ⟨ha, oid, hoid, hnames⟩ := hab
  exact UInt32.lt_of_le_of_lt (hnames.oid_le h.elements) (h.parts a ha oid hoid)

theorem Growing.acyclic (h : c.Growing) : Acyclic c.RefersTo := by
  have hlt : ∀ {a b}, TransGen c.RefersTo a b → b.oid < a.oid := by
    intro a b hab
    induction hab with
    | single hlast => exact h.oid_lt hlast
    | tail _ hlast ih => exact UInt32.lt_trans (h.oid_lt hlast) ih
  exact fun t ht => UInt32.lt_irrefl _ (hlt ht)

/-- An enum. -/
def mood : PgType :=
  ⟨16384, "public", "mood", .enum, 0, 0, false, "-", none, "-", [], ["sad", "happy"], []⟩

/-- The array type of `mood`. -/
def moods : PgType :=
  ⟨16385, "public", "_mood", .base, 16384, 0, false, "-", none, "-", [], [], []⟩

/-- A composite type with these attributes. -/
def diary (attributes : List Attribute) : PgType :=
  ⟨16386, "public", "diary", .composite, 0, 0, false, "-", none, "-", attributes, [], []⟩

/-- A table with a `diary` column. -/
def diaries (attributes : List Attribute) : TypeCatalog where
  types := [mood, moods, diary attributes]
  columns := [⟨16386, true⟩]
  oids_nodup := by simp [mood, moods, diary]
  oids_ne_zero := by simp [mood, moods, diary]
  names_nodup := by simp [mood, moods, diary]

/-- The moods of some days, and of the first one. -/
def firstMood : List Attribute := [⟨"days", "mood[]", 16385⟩, ⟨"first", "mood", 16384⟩]

theorem growing_firstMood : (diaries firstMood).Growing := by
  constructor
  · decide
  · decide

theorem in_order_firstMood : (diaries firstMood).InOrder := by
  refine (in_order_iff (diaries firstMood) growing_firstMood.acyclic).2 fun a b _ hab => ?_
  have hlt := growing_firstMood.oid_lt hab
  have huser := hab.isUser
  have hb := hab.mem_types
  have ha : a = diary firstMood ∧ b = mood := by
    obtain ⟨ha, oid, hoid, -⟩ := hab
    simp only [diaries, List.mem_cons, List.not_mem_nil, or_false] at ha hb
    rcases ha with rfl | rfl | rfl
    · cases hoid
    · cases hoid
    · rcases hb with rfl | rfl | rfl
      · exact ⟨rfl, rfl⟩
      · cases huser
      · exact absurd hlt (UInt32.lt_irrefl _)
  obtain ⟨rfl, rfl⟩ := ha
  exact .single ⟨by simp [diaries], by simp [diaries], rfl, by decide⟩

/-- The moods of some days only. -/
def onlyMoods : List Attribute := [⟨"days", "mood[]", 16385⟩]

/-- The composite type is returned first and listed before the enum. -/
theorem not_in_order_onlyMoods :
    Acyclic (diaries onlyMoods).RefersTo ∧ ¬ (diaries onlyMoods).InOrder := by
  have hgrowing : (diaries onlyMoods).Growing := by
    constructor
    · decide
    · decide
  refine ⟨hgrowing.acyclic, fun hall => ?_⟩
  have hcolumn : (⟨16386, true⟩ : PgColumn) ∈ (diaries onlyMoods).columns :=
    List.mem_singleton_self _
  have hdiary : (diaries onlyMoods).Used (diary onlyMoods).oid := .column hcolumn
  have hmood : (diaries onlyMoods).Names mood.oid mood := .self List.mem_cons_self rfl
  have hmoods : (diaries onlyMoods).Names moods.oid mood :=
    .array (List.mem_cons_of_mem mood List.mem_cons_self) rfl hmood
  have hrefers : (diaries onlyMoods).RefersTo (diary onlyMoods) mood :=
    ⟨by simp [diaries], moods.oid, by decide, hmoods⟩
  have h : (diaries onlyMoods).IsAnswer [diary onlyMoods, mood] := by
    refine ⟨by decide, fun t => ⟨fun ht => ?_, fun ⟨ht, _, huser⟩ => ?_⟩⟩
    · simp only [List.mem_cons, List.not_mem_nil, or_false] at ht
      rcases ht with rfl | rfl
      · exact ⟨by simp [diaries], hdiary, rfl⟩
      · exact ⟨by simp [diaries], Used.of_refersTo hdiary hrefers, rfl⟩
    · simp only [diaries, List.mem_cons, List.not_mem_nil, or_false] at ht
      rcases ht with rfl | rfl | rfl
      · simp
      · cases huser
      · simp
  obtain ⟨defs, order, hdefs, hcreation⟩ := hall _ h
  have hlisted : (diaries onlyMoods).introspectTypes [diary onlyMoods, mood] =
      .ok [.composite "public" "diary" [("days", "mood[]")],
        .enum "public" "mood" ["sad", "happy"]] := rfl
  obtain rfl := Except.ok.inj (hdefs.symm.trans hlisted)
  obtain rfl : order = [diary onlyMoods, mood] :=
    eq_of_map_typeDef hcreation.defs_eq rfl hcreation.mem_types
      fun t ht => ((h.mem_iff t).1 ht).1
  exact absurd (hcreation.creates.1 mood hrefers) List.not_mem_nil

end TypeCatalog

end Pglite.Replica.TypeOrder
