import Pglite.Replica.FirstRunSecurity

/-!
# Creating the types once more

What an interrupted attempt leaves (`Leftover`): types from the beginning of the list, tables of
the catalog in any state, a beginning of the roles. The next attempt drops and creates the types
one by one. `DROP TYPE … CASCADE` spares those that are created already, because they are made of
earlier ones only: the attempt that created them first found no others.
-/

namespace Pglite.Replica

open Runs Backfill Records

/-! ## Orders in which types can be created -/

/-- Each type is made of earlier ones. -/
def Ordered (typeNamed : String → Option TableKey) (types : List TypeDef) : Prop :=
  ∀ as ty bs, types = as ++ ty :: bs → typeUses typeNamed ty ⊆ as.map TypeDef.key

section Ordered

variable {typeNamed : String → Option TableKey} {types ts : List TypeDef} {ty : TypeDef}

theorem ordered_nil : Ordered typeNamed [] := by
  intro as ty bs h
  simp at h

theorem Ordered.of_prefix (h : Ordered typeNamed types) (hts : ts <+: types) :
    Ordered typeNamed ts := by
  obtain ⟨rest, rfl⟩ := hts
  intro as ty bs hsplit
  exact h as ty (bs ++ rest) (by rw [hsplit]; simp)

theorem Ordered.concat (h : Ordered typeNamed ts) (hty : typeUses typeNamed ty ⊆ ts.map TypeDef.key) :
    Ordered typeNamed (ts ++ [ty]) := by
  intro as ty' bs hsplit
  rcases List.eq_nil_or_concat bs with rfl | ⟨bs, last, rfl⟩
  · obtain ⟨rfl, hlast⟩ := List.append_inj' hsplit rfl
    obtain rfl := List.singleton_inj.1 hlast
    exact hty
  · rw [List.concat_eq_append, ← List.cons_append, ← List.append_assoc] at hsplit
    exact h as ty' bs (List.append_inj' hsplit rfl).1

theorem Ordered.subset (h : Ordered typeNamed ts) (hty : ty ∈ ts) :
    typeUses typeNamed ty ⊆ ts.map TypeDef.key := by
  obtain ⟨as, bs, rfl⟩ := List.append_of_mem hty
  intro k hk
  rw [List.map_append]
  exact List.mem_append_left _ (h as ty bs rfl hk)

/-- What is made of types of the list only, all of which are there, does not depend on another. -/
theorem not_dependent {l : LocalSchema} (h : Ordered typeNamed ts)
    (hbuilt : ∀ ty ∈ ts, l ty.key = some (.type ty)) {k : TableKey}
    (hk : k ∉ ts.map TypeDef.key) {j : TableKey} (hdep : Dependent typeNamed l k j) :
    j ∉ ts.map TypeDef.key := by
  induction hdep with
  | direct he huses =>
    intro hj
    obtain ⟨ty, hty, rfl⟩ := List.mem_map.1 hj
    obtain rfl := Option.some.inj (he.symm.trans (hbuilt ty hty))
    exact hk (h.subset hty huses)
  | via he huses _ ih =>
    intro hj
    obtain ⟨ty, hty, rfl⟩ := List.mem_map.1 hj
    obtain rfl := Option.some.inj (he.symm.trans (hbuilt ty hty))
    exact ih (h.subset hty huses)

end Ordered

/-! ## What is left -/

variable {srv : Server} {src : Source} {db db' : Database}

/-- What an interrupted attempt leaves. -/
structure Leftover (srv : Server) (src : Source) (db : Database) : Prop where
  stateTable : db.schema metaKey = none ∨ db.schema metaKey = some (.table metaTable)
  types : ∃ ts, ts <+: src.catalog.types ∧ Ordered srv.typeNamed ts ∧
    ∀ k ty, db.schema k = some (.type ty) → k ∈ ts.map TypeDef.key
  tables : ∀ k L, db.schema k = some (.table L) →
    k = metaKey ∨ k ∈ src.catalog.tables.map TableDef.key
  contents : ∀ k ∉ src.catalog.tables.map TableDef.key, db.contents k = []
  fresh : ∀ k ∉ src.catalog.tables.map TableDef.key, db.security.tables k = .fresh
  builtin : db.security.builtin = srv.builtinRoles
  begun : Begun src.security db.security

theorem leftover_empty : Leftover srv src (.empty srv.builtinRoles) where
  stateTable := .inl rfl
  types := ⟨[], List.nil_prefix, ordered_nil, fun _ _ h => by cases h⟩
  tables := fun _ _ h => by cases h
  contents _ _ := rfl
  fresh _ _ := rfl
  builtin := rfl
  begun := begun_bare src.security (Database.empty srv.builtinRoles).security

theorem Leftover.type_mem (h : Leftover srv src db) {k : TableKey} {ty : TypeDef}
    (hk : db.schema k = some (.type ty)) : k ∈ src.catalog.types.map TypeDef.key := by
  obtain ⟨ts, hts, -, hall⟩ := h.types
  exact (hts.map _).subset (hall k ty hk)

/-- No leftover type has the name of a table. -/
theorem Leftover.not_type (h : Leftover srv src db) {t : Backfill.TableDef}
    (ht : t ∈ src.catalog.tables)
    (ty : TypeDef) : db.schema t.key ≠ some (.type ty) := by
  intro hk
  obtain ⟨ty', hty', hkey⟩ := List.mem_map.1 (h.type_mem hk)
  exact src.catalog.disjoint t ht ty' hty' hkey

/-! ## Types -/

/-- These types are created anew, and what is there of others was created in order. -/
structure Rebuilt (srv : Server) (src : Source) (done : List TypeDef) (db : Database) : Prop where
  leftover : Leftover srv src db
  stateTable : db.schema metaKey = some (.table metaTable)
  longer : ∃ ts, done <+: ts ∧ ts <+: src.catalog.types ∧ Ordered srv.typeNamed ts ∧
    ∀ k ty, db.schema k = some (.type ty) → k ∈ ts.map TypeDef.key
  built : ∀ ty ∈ done, db.schema ty.key = some (.type ty)

theorem Leftover.rebuilt (h : Leftover srv src db)
    (hstate : db.schema metaKey = some (.table metaTable)) : Rebuilt srv src [] db := by
  obtain ⟨ts, hts, hordered, hall⟩ := h.types
  exact ⟨h, hstate, ⟨ts, List.nil_prefix, hts, hordered, hall⟩, fun _ hty => by cases hty⟩

section Types

variable {done rest : List TypeDef} {ty : TypeDef}

/-- The types that are not yet created anew have other names. -/
theorem key_not_mem_done (htypes : src.catalog.types = done ++ ty :: rest) :
    ty.key ∉ done.map TypeDef.key := by
  have hnodup := src.catalog.types_nodup
  rw [htypes, List.map_append, List.map_cons] at hnodup
  intro hmem
  exact (List.nodup_append.1 hnodup).2.2 _ hmem _ List.mem_cons_self rfl

/-- `DROP TYPE` leaves what is created anew. -/
theorem Rebuilt.drop (h : Rebuilt srv src done db)
    (htypes : src.catalog.types = done ++ ty :: rest)
    (hexec : srv.execDdl db (.dropType ty) = some db') :
    Rebuilt srv src done db' ∧ db'.schema ty.key = none := by
  simp only [Server.execDdl] at hexec
  cases hkey : db.schema ty.key with
  | none =>
    rw [hkey] at hexec
    obtain rfl := Option.some.inj hexec
    exact ⟨h, hkey⟩
  | some e =>
    rw [hkey] at hexec
    cases e with
    | table L => cases hexec
    | type ty' =>
      obtain rfl := Option.some.inj hexec
      refine ⟨?_, srv.cascade_self db ty.key⟩
      have hmeta : ty.key ≠ metaKey := by
        intro hmeta
        rw [hmeta, h.stateTable] at hkey
        cases hkey
      have hfree : ¬Dependent srv.typeNamed db.schema ty.key metaKey := by
        intro hdep
        have hnone : ∀ e, db.schema metaKey = some e → entityUses srv.typeNamed e = [] := by
          intro e he
          obtain rfl := Option.some.inj (h.stateTable.symm.trans he)
          exact srv.builtin
        cases hdep with
        | direct he huses => simp [hnone _ he] at huses
        | via he huses _ => simp [hnone _ he] at huses
      have hstate := srv.cascade_frame db ty.key metaKey (Ne.symm hmeta) hfree
      obtain ⟨ts, hdone, hts, hordered, hall⟩ := h.longer
      have hnotDone := key_not_mem_done htypes
      have hother : ∀ k ∉ src.catalog.tables.map TableDef.key, k ≠ metaKey →
          ∀ L, db.schema k ≠ some (.table L) := by
        intro k hk hne L hL
        exact (h.leftover.tables k L hL).elim hne hk
      have hkinds : ∀ k ty', (srv.cascade db ty.key).schema k = some (.type ty') →
          k ∈ ts.map TypeDef.key := by
        intro k ty' hk
        obtain ⟨ty'', hk⟩ := (srv.cascade_kind db ty.key k).1 ty' hk
        exact hall k ty'' hk
      obtain ⟨hsame, hsecurity⟩ := srv.cascade_security db ty.key
      refine ⟨⟨.inr (hstate.1.trans h.stateTable), ⟨ts, hts, hordered, hkinds⟩, ?_, ?_, ?_, ?_, ?_⟩,
        hstate.1.trans h.stateTable, ⟨ts, hdone, hts, hordered, hkinds⟩, ?_⟩
      · intro k L hk
        obtain ⟨L', hk⟩ := (srv.cascade_kind db ty.key k).2 L hk
        exact h.leftover.tables k L' hk
      · intro k hk
        by_cases hne : k = metaKey
        · subst hne
          rw [hstate.2, h.leftover.contents _ hk]
        · rw [srv.cascade_rows db ty.key k (hother k hk hne), h.leftover.contents k hk]
      · intro k hk
        by_cases hne : k = metaKey
        · subst hne
          rw [hsecurity _ (.inr hfree), h.leftover.fresh _ hk]
        · rw [hsecurity k (.inl (hother k hk hne)), h.leftover.fresh k hk]
      · rw [hsame]
        exact h.leftover.builtin
      · rw [hsame]
        exact h.leftover.begun.withTables _
      · intro ty₀ hty₀
        have hne : ty₀.key ≠ ty.key := fun heq => hnotDone (heq ▸ List.mem_map_of_mem hty₀)
        have hfree₀ : ¬Dependent srv.typeNamed db.schema ty.key ty₀.key := fun hdep =>
          not_dependent (hordered.of_prefix hdone) h.built hnotDone hdep
            (List.mem_map_of_mem hty₀)
        rw [(srv.cascade_frame db ty.key ty₀.key hne hfree₀).1, h.built ty₀ hty₀]

/-- The types a new one is made of are created anew already: those that are left were created in
order. -/
theorem Rebuilt.uses (h : Rebuilt srv src done db)
    (htypes : src.catalog.types = done ++ ty :: rest)
    (hknown : Known db.schema (typeUses srv.typeNamed ty)) :
    typeUses srv.typeNamed ty ⊆ done.map TypeDef.key ∧
      ∃ ts, done ++ [ty] <+: ts ∧ ts <+: src.catalog.types ∧ Ordered srv.typeNamed ts ∧
        ∀ k ty', db.schema k = some (.type ty') → k ∈ ts.map TypeDef.key := by
  obtain ⟨ts, hdone, hts, hordered, hall⟩ := h.longer
  have hdoneTypes : done ++ [ty] <+: src.catalog.types := ⟨rest, by rw [htypes]; simp⟩
  rcases List.prefix_or_prefix_of_prefix hts hdoneTypes with hshort | hlong
  · have huses : typeUses srv.typeNamed ty ⊆ ts.map TypeDef.key := by
      intro k hk
      have hany := hknown k hk
      cases he : db.schema k with
      | none => simp [he] at hany
      | some e =>
        cases e with
        | table L => simp [he] at hany
        | type ty' => exact hall k ty' he
    rcases List.prefix_concat_iff.1 hshort with rfl | hshort
    · exact ⟨hordered done ty [] rfl, done ++ [ty], List.prefix_rfl, hdoneTypes, hordered, hall⟩
    · obtain rfl : ts = done :=
        hshort.eq_of_length (le_antisymm hshort.length_le hdone.length_le)
      refine ⟨huses, ts ++ [ty], List.prefix_rfl, hdoneTypes, hordered.concat huses, ?_⟩
      intro k ty' hk
      rw [List.map_append]
      exact List.mem_append_left _ (hall k ty' hk)
  · exact ⟨(hordered.of_prefix hlong) done ty [] rfl, ts, hlong, hts, hordered, hall⟩

/-- `CREATE TYPE` after the `DROP TYPE`. -/
theorem Rebuilt.create (h : Rebuilt srv src done db)
    (htypes : src.catalog.types = done ++ ty :: rest) (hmeta : ty.key ≠ metaKey)
    (hexec : srv.execDdl db (.createType ty) = some db') :
    Rebuilt srv src (done ++ [ty]) db' ∧ typeUses srv.typeNamed ty ⊆ done.map TypeDef.key := by
  simp only [Server.execDdl, Option.ite_none_right_eq_some] at hexec
  obtain ⟨hknown, hexec⟩ := hexec
  obtain ⟨huses, ts, hlong, hts, hordered, hall⟩ := h.uses htypes hknown
  simp only [Server.plainDdl, LocalSchema.exec, Option.map_eq_some_iff] at hexec
  obtain ⟨l, hl, rfl⟩ := hexec
  split_ifs at hl
  obtain rfl := Option.some.inj hl
  have hstate : Function.update db.schema ty.key (some (.type ty)) metaKey =
      some (.table metaTable) := by
    rw [Function.update_of_ne (Ne.symm hmeta), h.stateTable]
  have hkinds : ∀ k ty', Function.update db.schema ty.key (some (.type ty)) k = some (.type ty') →
      k ∈ ts.map TypeDef.key := by
    intro k ty' hk
    by_cases heq : k = ty.key
    · subst heq
      exact (hlong.map _).subset (by simp)
    · rw [Function.update_of_ne heq] at hk
      exact hall k ty' hk
  refine ⟨⟨⟨.inr hstate, ⟨ts, hts, hordered, hkinds⟩, ?_, h.leftover.contents, h.leftover.fresh,
    h.leftover.builtin, h.leftover.begun⟩, hstate, ⟨ts, hlong, hts, hordered, hkinds⟩, ?_⟩, huses⟩
  · intro k L hk
    change Function.update db.schema ty.key (some (.type ty)) k = some (.table L) at hk
    by_cases heq : k = ty.key
    · subst heq
      rw [Function.update_self] at hk
      cases hk
    · rw [Function.update_of_ne heq] at hk
      exact h.leftover.tables k L hk
  · intro ty₀ hty₀
    change Function.update db.schema ty.key (some (.type ty)) ty₀.key = some (.type ty₀)
    rcases List.mem_append.1 hty₀ with hty₀ | hty₀
    · have hne : ty₀.key ≠ ty.key := fun heq =>
        key_not_mem_done htypes (heq ▸ List.mem_map_of_mem hty₀)
      rw [Function.update_of_ne hne, h.built ty₀ hty₀]
    · obtain rfl := List.mem_singleton.1 hty₀
      exact Function.update_self ..

theorem run_schemaDdl_append (schema : String) (stmts : List Ddl) :
    run srv.execDdl db (schemaDdl schema ++ stmts) = run srv.execDdl db stmts := by
  unfold schemaDdl
  split_ifs
  · rfl
  · rfl

theorem along_schemaDdl_append {P : Database → Prop} {stmts : List Ddl} (schema : String)
    (h : Along srv.execDdl P db stmts) : Along srv.execDdl P db (schemaDdl schema ++ stmts) := by
  unfold schemaDdl
  split_ifs
  · exact h
  · exact (along_cons rfl).2 ⟨h.first, h⟩

/-- A name that is free is not that of the state table. -/
theorem Rebuilt.ne_metaKey (h : Rebuilt srv src done db) {k : TableKey} (hk : db.schema k = none) :
    k ≠ metaKey := by
  rintro rfl
  rw [h.stateTable] at hk
  cases hk

/-- Every state of the first loop of `bootstrap_schema` can be started from. -/
theorem Rebuilt.along_types (h : Rebuilt srv src done db)
    (htypes : src.catalog.types = done ++ rest) :
    Along srv.execDdl (Leftover srv src) db (rest.flatMap typeDdl) := by
  induction rest generalizing done db with
  | nil => exact along_nil.2 h.leftover
  | cons ty rest ih =>
    rw [List.flatMap_cons, typeDdl, List.append_assoc]
    refine along_schemaDdl_append ty.schema (Along.cons h.leftover fun u hu => ?_)
    obtain ⟨hdrop, hfree⟩ := h.drop htypes hu
    refine Along.cons hdrop.leftover fun v hv => ?_
    exact ih (hdrop.create htypes (hdrop.ne_metaKey hfree) hv).1 (by rw [htypes]; simp)

/-- At its end all types are created anew. -/
theorem Rebuilt.of_run_types (h : Rebuilt srv src done db)
    (htypes : src.catalog.types = done ++ rest)
    (hrun : run srv.execDdl db (rest.flatMap typeDdl) = some db') :
    Rebuilt srv src src.catalog.types db' := by
  induction rest generalizing done db with
  | nil =>
    obtain rfl := Option.some.inj hrun
    rwa [htypes, List.append_nil]
  | cons ty rest ih =>
    rw [List.flatMap_cons, typeDdl, List.append_assoc, run_schemaDdl_append] at hrun
    obtain ⟨u, hu, hrun⟩ := run_cons_eq_some.1 hrun
    obtain ⟨v, hv, hrun⟩ := run_cons_eq_some.1 hrun
    obtain ⟨hdrop, hfree⟩ := h.drop htypes hu
    exact ih (hdrop.create htypes (hdrop.ne_metaKey hfree) hv).1 (by rw [htypes]; simp) hrun

/-- No type has the name of a table that is there. -/
theorem Rebuilt.not_table (h : Rebuilt srv src done db) (hty : ty ∈ src.catalog.types)
    (hmeta : ty.key ≠ metaKey) (L : LocalTable) : db.schema ty.key ≠ some (.table L) := by
  intro hk
  rcases h.leftover.tables _ L hk with hkey | hmem
  · exact hmeta hkey
  · obtain ⟨t, ht, hkey⟩ := List.mem_map.1 hmem
    exact src.catalog.disjoint t ht ty hty hkey.symm

/-- The loop comes to its end when each type is made of earlier ones. -/
theorem Rebuilt.exists_run_types (h : Rebuilt srv src done db)
    (htypes : src.catalog.types = done ++ rest) (hordered : Ordered srv.typeNamed src.catalog.types)
    (hmeta : ∀ ty ∈ src.catalog.types, ty.key ≠ metaKey) :
    ∃ db', run srv.execDdl db (rest.flatMap typeDdl) = some db' := by
  induction rest generalizing done db with
  | nil => exact ⟨db, rfl⟩
  | cons ty rest ih =>
    have hty : ty ∈ src.catalog.types := by simp [htypes]
    obtain ⟨u, hu⟩ : ∃ u, srv.execDdl db (.dropType ty) = some u := by
      simp only [Server.execDdl]
      cases hk : db.schema ty.key with
      | none => exact ⟨db, rfl⟩
      | some e =>
        cases e with
        | type ty' => exact ⟨_, rfl⟩
        | table L => exact absurd hk (h.not_table hty (hmeta ty hty) L)
    obtain ⟨hdrop, hfree⟩ := h.drop htypes hu
    have hknown : Known u.schema (typeUses srv.typeNamed ty) := by
      intro k hk
      obtain ⟨ty', hty', rfl⟩ := List.mem_map.1 (hordered done ty rest htypes hk)
      simp [hdrop.built ty' hty']
    obtain ⟨v, hv⟩ : ∃ v, srv.execDdl u (.createType ty) = some v := by
      simp [Server.execDdl, hknown, Server.plainDdl, LocalSchema.exec, hfree]
    obtain ⟨w, hw⟩ := ih (hdrop.create htypes (hmeta ty hty) hv).1 (by rw [htypes]; simp)
    refine ⟨w, ?_⟩
    rw [List.flatMap_cons, typeDdl, List.append_assoc, run_schemaDdl_append]
    exact run_cons_eq_some.2 ⟨u, hu, run_cons_eq_some.2 ⟨v, hv, hw⟩⟩

end Types

end Pglite.Replica
