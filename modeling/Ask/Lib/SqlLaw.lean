/-
  What statements keep: none that goes through leaves a valid database invalid
  (`exec_valid`), rows that keep the constraints are copied as they are, and a
  table that none refers to is dropped alone.
-/
import Ask.Lib.Sql

namespace Lib.Sql

/-! ## Finding and changing tables -/

section tables
variable {Name Idx Col : Type} {db db' : Database Name Idx Col} {t t' t₀ : Table Name Idx Col} {n n' : Name}
  {f : Table Name Idx Col → Table Name Idx Col} {g : Name → Name} {r r' : Row Col} {ref : Col × Name}

namespace Database

/-- A name belongs to one table. -/
theorem Valid.eq_of_name (h : db.Valid) (ht : t ∈ db) (ht' : t' ∈ db) (hn : t.name = t'.name) :
    t = t' := List.inj_on_of_nodup_map h.names ht ht' hn

/-- References go where `g` sends the names, as long as the keys stay. -/
theorem Refers.map (hname : ∀ t ∈ db, (f t).name = g t.name)
    (hkeys : ∀ t ∈ db, ∀ p ∈ t.rows, ∃ p' ∈ (f t).rows, p' (f t).schema.key = p t.schema.key)
    (h : db.Refers r ref) : Refers (db.map f) r (ref.1, g ref.2) := by
  rcases h with hnull | ⟨t, ht, htn, p, hp, hkey⟩
  · exact .inl hnull
  · obtain ⟨p', hp', hkey'⟩ := hkeys t ht p hp
    exact .inr ⟨f t, List.mem_map_of_mem ht, by rw [hname t ht, htn], p', hp', hkey'.trans hkey⟩

/-- Tables may change as long as their keys stay, and what their rows refer to. -/
theorem Valid.map (h : db.Valid) (hname : ∀ t ∈ db, (f t).name = g t.name)
    (hinj : ∀ t ∈ db, ∀ t' ∈ db, g t.name = g t'.name → t.name = t'.name)
    (hvalid : ∀ t ∈ db, (f t).Valid)
    (hkeys : ∀ t ∈ db, ∀ p ∈ t.rows, ∃ p' ∈ (f t).rows, p' (f t).schema.key = p t.schema.key)
    (hrefs : ∀ t ∈ db, ∀ r ∈ (f t).rows, ∀ ref ∈ (f t).schema.references,
      (∃ n, ref.2 = g n ∧ db.Refers r (ref.1, n)) ∨ Refers (db.map f) r ref) :
    Valid (db.map f) := by
  refine ⟨?_, List.forall_mem_map.2 hvalid, List.forall_mem_map.2 fun t ht r hr ref href => ?_⟩
  · rw [List.map_map]
    refine List.Nodup.map_on (fun t ht t' ht' heq => ?_) (List.Nodup.of_map _ h.names)
    rw [Function.comp_apply, Function.comp_apply, hname t ht, hname t' ht'] at heq
    exact h.eq_of_name ht ht' (hinj t ht t' ht' heq)
  · rcases hrefs t ht r hr ref href with ⟨n, hn, hrefers⟩ | hrefers
    · have hmap := hrefers.map hname hkeys
      rwa [← hn] at hmap
    · exact hrefers

variable [DecidableEq Name]

theorem of_find (h : db.find n = some t) : t ∈ db ∧ t.name = n :=
  ⟨List.mem_of_find?_eq_some h, by simpa using List.find?_some h⟩

theorem find_eq_none : db.find n = none ↔ ∀ t ∈ db, t.name ≠ n := by
  simp [find, List.find?_eq_none]

theorem Valid.find (h : db.Valid) (ht : t ∈ db) : db.find t.name = some t := by
  cases hf : db.find t.name with
  | none => exact absurd rfl (find_eq_none.1 hf t ht)
  | some t' =>
    obtain ⟨ht', hn⟩ := of_find hf
    rw [h.eq_of_name ht' ht hn]

/-- `Valid.map` for one table that is found by its name. -/
theorem Valid.modify (h : db.Valid) (hfind : db.find n = some t) (hname : (f t).name = n)
    (hvalid : (f t).Valid)
    (hkeys : ∀ p ∈ t.rows, ∃ p' ∈ (f t).rows, p' (f t).schema.key = p t.schema.key)
    (hrefs : ∀ r ∈ (f t).rows, ∀ ref ∈ (f t).schema.references,
      db.Refers r ref ∨ (db.modify n f).Refers r ref) : (db.modify n f).Valid := by
  obtain ⟨ht, rfl⟩ := of_find hfind
  have hone : ∀ t' ∈ db, t'.name = t.name → t' = t := fun t' ht' hn => h.eq_of_name ht' ht hn
  refine h.map (g := id) ?_ ?_ ?_ ?_ ?_
  · intro t' ht'
    split_ifs with hn
    · rw [hone t' ht' hn]
      exact hname
    · rfl
  · exact fun t₁ _ t₂ _ heq => heq
  · intro t' ht'
    split_ifs with hn
    · rw [hone t' ht' hn]
      exact hvalid
    · exact h.tables t' ht'
  · intro t' ht'
    split_ifs with hn
    · rw [hone t' ht' hn]
      exact hkeys
    · exact fun p hp => ⟨p, hp, rfl⟩
  · intro t' ht' r hr ref href
    split_ifs at hr href with hn
    · rw [hone t' ht' hn] at hr href
      exact (hrefs r hr ref href).imp (fun hrefers => ⟨ref.2, rfl, hrefers⟩) id
    · exact .inl ⟨ref.2, rfl, h.complete t' ht' r hr ref href⟩

end Database

end tables

/-! ## Statements keep databases valid -/

section laws
variable {Name Idx Col : Type}
  {db db' : Database Name Idx Col} {t t' : Table Name Idx Col} {n n' : Name} {i : Idx}
  {schema : Schema Name Col} {cols into : List Col} {rows : List (Row Col)} {r : Row Col}

/-- A table without rows keeps all constraints that speak of its columns. -/
theorem Table.valid_empty (h : ∀ c ∈ schema.constrained, c ∈ schema.names) :
    (⟨n, schema, [], [], 0⟩ : Table Name Idx Col).Valid where
  constrained := h
  indexed _ hi := absurd hi List.not_mem_nil
  blank _ hr := absurd hr List.not_mem_nil
  fits _ hr := absurd hr List.not_mem_nil
  unique _ _ := .nil
  seq _ _ hr := absurd hr List.not_mem_nil
  noSeq _ := rfl

namespace Database

theorem createTable_valid [DecidableEq Name] [DecidableEq Col] {ifNotExists : Bool} (h : db.Valid)
    (hok : db.createTable n ifNotExists schema = .ok db') : db'.Valid := by
  unfold createTable at hok
  cases hf : db.find n with
  | some t =>
    rw [hf] at hok
    dsimp only at hok
    split_ifs at hok
    cases hok
    exact h
  | none =>
    rw [hf] at hok
    dsimp only at hok
    split_ifs at hok with hnamed
    cases hok
    have hnew := find_eq_none.1 hf
    refine ⟨?_, ?_, ?_⟩
    · rw [List.map_append, List.nodup_append]
      refine ⟨h.names, by simp, ?_⟩
      rintro m hm m' hm' rfl
      obtain ⟨t, ht, rfl⟩ := List.mem_map.1 hm
      exact hnew t ht (List.mem_singleton.1 hm')
    · intro t ht
      rcases List.mem_append.1 ht with ht | ht
      · exact h.tables t ht
      · rw [List.mem_singleton.1 ht]
        exact Table.valid_empty hnamed
    · intro t ht r hr ref href
      rcases List.mem_append.1 ht with ht | ht
      · refine (h.complete t ht r hr ref href).imp id ?_
        rintro ⟨t', ht', hrefers⟩
        exact ⟨t', List.mem_append_left _ ht', hrefers⟩
      · rw [List.mem_singleton.1 ht] at hr
        exact absurd hr List.not_mem_nil

theorem createIndex_valid [DecidableEq Name] [DecidableEq Idx] [DecidableEq Col]
    {ifNotExists unique : Bool} (h : db.Valid)
    (hok : db.createIndex i ifNotExists unique n cols = .ok db') : db'.Valid := by
  unfold createIndex at hok
  cases hf : db.find n with
  | none =>
    rw [hf] at hok
    cases hok
  | some t =>
    rw [hf] at hok
    dsimp only at hok
    obtain ⟨ht, hn⟩ := of_find hf
    have hvalid := h.tables t ht
    split_ifs at hok with hindex hexists hcols hunique
    · cases hok
      exact h
    · cases hok
      refine h.modify hf hn ?_ (fun p hp => ⟨p, hp, rfl⟩)
        (fun r hr ref href => .inl (h.complete t ht r hr ref href))
      refine { hvalid with indexed := ?_, unique := ?_ }
      · rintro j hj c hc
        rcases List.mem_append.1 hj with hj | hj
        · exact hvalid.indexed j hj c hc
        · rw [List.mem_singleton.1 hj] at hc
          exact hcols c hc
      · intro cs hcs
        rw [not_and, not_not] at hunique
        have hmem : cs ∈ t.uniqueSets ∨ unique = true ∧ cs = cols := by
          simp only [Table.uniqueSets, List.filter_append, List.map_append, List.mem_cons,
            List.mem_append, List.mem_map, List.mem_filter, List.not_mem_nil, or_false] at hcs ⊢
          rcases hcs with hkey | hset | hold | ⟨j, ⟨rfl, hj⟩, rfl⟩
          · exact .inl (.inl hkey)
          · exact .inl (.inr (.inl hset))
          · exact .inl (.inr (.inr hold))
          · exact .inr ⟨hj, rfl⟩
        rcases hmem with hold | ⟨hu, rfl⟩
        · exact hvalid.unique cs hold
        · exact hunique hu

theorem dropIndexIfExists_valid [DecidableEq Idx] (h : db.Valid) : (db.dropIndexIfExists i).Valid := by
  refine h.map (g := id) (fun t _ => rfl) (fun t _ t' _ heq => heq) (fun t ht => ?_)
    (fun t _ p hp => ⟨p, hp, rfl⟩)
    (fun t ht r hr ref href => .inl ⟨ref.2, rfl, h.complete t ht r hr ref href⟩)
  have hvalid := h.tables t ht
  refine { hvalid with indexed := fun j hj => hvalid.indexed j (List.mem_filter.1 hj).1, unique := ?_ }
  intro cs hcs
  refine hvalid.unique cs ?_
  simp only [Table.uniqueSets, List.mem_cons, List.mem_append, List.mem_map, List.mem_filter] at hcs ⊢
  rcases hcs with hkey | hset | ⟨j, ⟨⟨hj, -⟩, hu⟩, rfl⟩
  · exact .inl hkey
  · exact .inr (.inl hset)
  · exact .inr (.inr ⟨j, ⟨hj, hu⟩, rfl⟩)

theorem renameTable_valid [DecidableEq Name] (h : db.Valid) (hok : db.renameTable n n' = .ok db') :
    db'.Valid := by
  unfold renameTable at hok
  cases hf : db.find n with
  | none =>
    rw [hf] at hok
    cases hok
  | some t₀ =>
    cases hf' : db.find n' with
    | some t₁ =>
      rw [hf, hf'] at hok
      cases hok
    | none =>
      rw [hf, hf'] at hok
      cases hok
      have hnew := find_eq_none.1 hf'
      refine h.map (g := renamed n n') (fun t _ => rfl) ?_ (fun t ht => ?_)
        (fun t _ p hp => ⟨p, hp, rfl⟩) ?_
      · intro t ht t' ht' heq
        unfold renamed at heq
        split_ifs at heq with hn hn' hn'
        · rw [hn, hn']
        · exact absurd heq.symm (hnew t' ht')
        · exact absurd heq (hnew t ht)
        · exact heq
      · have hvalid := h.tables t ht
        refine { hvalid with constrained := ?_, fits := fun r hr => ?_ }
        · have hfst : (t.schema.references.map fun ref => (ref.1, renamed n n' ref.2)).map Prod.fst =
              t.schema.references.map Prod.fst := by simp
          rw [Schema.constrained, hfst]
          exact hvalid.constrained
        · obtain ⟨hnull, hkey, hchecks⟩ := hvalid.fits r hr
          exact ⟨hnull, hkey, hchecks⟩
      · intro t ht r hr ref' href'
        obtain ⟨ref, href, rfl⟩ := List.mem_map.1 href'
        exact .inl ⟨ref.2, rfl, h.complete t ht r hr ref href⟩

theorem addColumn_valid [DecidableEq Name] [DecidableEq Col] {c : Column Col} (h : db.Valid)
    (hok : db.addColumn n c = .ok db') : db'.Valid := by
  unfold addColumn at hok
  cases hf : db.find n with
  | none =>
    rw [hf] at hok
    cases hok
  | some t =>
    rw [hf] at hok
    dsimp only at hok
    obtain ⟨ht, hn⟩ := of_find hf
    have hvalid := h.tables t ht
    split_ifs at hok with hold hnull
    cases hok
    -- the new column is none of those that the constraints speak of
    have hsame : ∀ (r : Row Col), ∀ c' ∈ t.schema.names, Function.update r c.name c.default c' = r c' := by
      intro r c' hc'
      exact Function.update_of_ne (ne_of_mem_of_not_mem hc' hold) _ _
    have hconstr : ∀ c' ∈ t.schema.constrained, c' ∈ t.schema.names := hvalid.constrained
    have hkey : t.schema.key ∈ t.schema.names := hconstr _ List.mem_cons_self
    refine h.modify hf hn ?_ ?_ ?_
    · refine
        { constrained := fun c' hc' => ?_, indexed := fun j hj c' hc' => ?_, blank := ?_, fits := ?_
          unique := ?_, seq := ?_, noSeq := hvalid.noSeq }
      · simpa [Schema.names] using .inl (by simpa [Schema.names] using hconstr c' hc')
      · simpa [Schema.names] using .inl (by simpa [Schema.names] using hvalid.indexed j hj c' hc')
      · rintro r' hr' c' hc'
        obtain ⟨r, hr, rfl⟩ := List.mem_map.1 hr'
        have hc' : c' ∉ t.schema.names ∧ c' ≠ c.name := by
          simpa [Schema.names, not_or, eq_comm] using hc'
        rw [Function.update_of_ne hc'.2]
        exact hvalid.blank r hr c' hc'.1
      · rintro r' hr'
        obtain ⟨r, hr, rfl⟩ := List.mem_map.1 hr'
        obtain ⟨hfull, hint, hchecks⟩ := hvalid.fits r hr
        refine ⟨fun column hcolumn hnn => ?_, ?_, fun check hcheck => ?_⟩
        · rcases List.mem_append.1 hcolumn with hcolumn | hcolumn
          · rw [hsame r _ (List.mem_map_of_mem hcolumn)]
            exact hfull column hcolumn hnn
          · rw [List.mem_singleton.1 hcolumn] at hnn ⊢
            rw [Function.update_self]
            exact fun hd => hnull ⟨hnn, hd, List.ne_nil_of_mem hr⟩
        · rw [hsame r _ hkey]
          exact hint
        · have hmem : check.column ∈ t.schema.constrained := by
            simp only [Schema.constrained, List.mem_cons, List.mem_append, List.mem_map]
            exact .inr (.inl (.inr ⟨check, hcheck, rfl⟩))
          rw [Check.holds_congr (hsame r _ (hconstr _ hmem))]
          exact hchecks check hcheck
      · intro cs hcs
        have hcs' : ∀ c' ∈ cs, c' ∈ t.schema.names := by
          intro c' hc'
          simp only [Table.uniqueSets, List.mem_cons, List.mem_append, List.mem_map, List.mem_filter] at hcs
          rcases hcs with rfl | hset | ⟨j, ⟨hj, -⟩, rfl⟩
          · rw [List.mem_singleton.1 hc']
            exact hkey
          · refine hconstr c' ?_
            simp only [Schema.constrained, List.mem_cons, List.mem_append, List.mem_flatten]
            exact .inr (.inl (.inl ⟨cs, hset, hc'⟩))
          · exact hvalid.indexed j hj c' hc'
        refine List.pairwise_map.2 ((hvalid.unique cs hcs).imp fun hne hagree => hne fun c' hc' => ?_)
        have hc := hagree c' hc'
        rwa [hsame _ c' (hcs' c' hc'), hsame _ c' (hcs' c' hc')] at hc
      · rintro hauto r' hr'
        obtain ⟨r, hr, rfl⟩ := List.mem_map.1 hr'
        rw [hsame r _ hkey]
        exact hvalid.seq hauto r hr
    · intro p hp
      exact ⟨_, List.mem_map_of_mem hp, hsame p _ hkey⟩
    · rintro r' hr' ref href
      obtain ⟨r, hr, rfl⟩ := List.mem_map.1 hr'
      have hmem : ref.1 ∈ t.schema.constrained := by
        simp only [Schema.constrained, List.mem_cons, List.mem_append, List.mem_map]
        exact .inr (.inr ⟨ref, href, rfl⟩)
      refine .inl ?_
      rw [Refers, hsame r _ (hconstr _ hmem)]
      exact h.complete t ht r hr ref href

end Database

end laws

/-! ## Copies -/

section copies
variable {Name Idx Col : Type}
  {db db' : Database Name Idx Col} {t t' t₀ : Table Name Idx Col} {n source : Name}
  {schema : Schema Name Col} {cols into : List Col} {rows : List (Row Col)} {r : Row Col}

/-- Rows that are added come last, and nothing else changes but the counter. -/
theorem Table.foldl_push : ∀ (rows : List (Row Col)) (t : Table Name Idx Col),
    rows.foldl Table.push t =
      { t with
        rows := t.rows ++ rows
        seq := if t.schema.autoincrement then
          rows.foldl (fun seq r => max seq (r t.schema.key).toInt) t.seq else t.seq }
  | [], t => by cases t; simp
  | r :: rows, t => by
    rw [List.foldl_cons, Table.foldl_push rows (t.push r)]
    by_cases hauto : t.schema.autoincrement = true
    · simp [Table.push, hauto]
    · simp [Table.push, hauto]

/-- The counter ends at no less than where it began, and than every key. -/
theorem Table.le_counter {key : Row Col → ℤ} : ∀ (rows : List (Row Col)) (seq : ℤ),
    seq ≤ rows.foldl (fun seq r => max seq (key r)) seq ∧
      ∀ r ∈ rows, key r ≤ rows.foldl (fun seq r => max seq (key r)) seq
  | [], seq => by simp
  | r :: rows, seq => by
    obtain ⟨hseq, hrows⟩ := Table.le_counter rows (max seq (key r))
    rw [List.foldl_cons]
    refine ⟨(le_max_left _ _).trans hseq, List.forall_mem_cons.2 ⟨(le_max_right _ _).trans hseq, hrows⟩⟩

/-- A row that keeps the constraints keeps the table valid. -/
theorem Table.Valid.push (h : t.Valid) (hblank : ∀ c, c ∉ t.schema.names → r c = .null)
    (hfits : t.schema.Fits r) (hnew : ∀ cs ∈ t.uniqueSets, ∀ r' ∈ t.rows, ¬Agree cs r' r) :
    (t.push r).Valid where
  constrained := h.constrained
  indexed := h.indexed
  blank := List.forall_mem_append.2 ⟨h.blank, List.forall_mem_singleton.2 hblank⟩
  fits := List.forall_mem_append.2 ⟨h.fits, List.forall_mem_singleton.2 hfits⟩
  unique cs hcs := by
    refine List.pairwise_append.2 ⟨h.unique cs hcs, List.pairwise_singleton _ _, fun r' hr' r'' hr'' => ?_⟩
    rw [List.mem_singleton.1 hr'']
    exact hnew cs hcs r' hr'
  seq hauto r' hr' := by
    have hseq : (t.push r).seq = max t.seq (r t.schema.key).toInt := if_pos hauto
    rw [hseq]
    rcases List.mem_append.1 hr' with hr' | hr'
    · exact le_max_of_le_left (h.seq hauto r' hr')
    · rw [List.mem_singleton.1 hr']
      exact le_max_right _ _
  noSeq hauto := by
    have hseq : (t.push r).seq = t.seq := if_neg (ne_true_of_eq_false hauto)
    rw [hseq]
    exact h.noSeq hauto

/-- All rows go in exactly when the table with all of them is valid. -/
theorem Table.foldlM_insert : ∀ {rows : List (Row Col)} {t : Table Name Idx Col}, t.Valid →
    (∀ r ∈ rows, ∀ c, c ∉ t.schema.names → r c = .null) →
      (rows.foldlM Table.insert t = some t' ↔ t' = rows.foldl Table.push t ∧ t'.Valid)
  | [], t, h, _ => by
    simp only [List.foldlM_nil, List.foldl_nil, pure, Option.some.injEq]
    constructor
    · rintro rfl
      exact ⟨rfl, h⟩
    · exact fun h' => h'.1.symm
  | r :: rows, t, h, hblank => by
    obtain ⟨hr, hrows⟩ := List.forall_mem_cons.1 hblank
    rw [List.foldlM_cons, List.foldl_cons, Table.insert]
    by_cases hok : t.schema.Fits r ∧ ∀ cs ∈ t.uniqueSets, ∀ r' ∈ t.rows, ¬Agree cs r' r
    · rw [if_pos hok]
      exact Table.foldlM_insert (h.push hr hok.1 hok.2) hrows
    · rw [if_neg hok]
      refine ⟨fun h' => absurd h' (by simp), ?_⟩
      rintro ⟨rfl, hvalid⟩
      -- the table with all rows would break the constraint that the row breaks
      rw [Table.foldl_push] at hvalid
      refine absurd ⟨hvalid.fits r ?_, fun cs hcs r' hr' => ?_⟩ hok
      · simp [Table.push]
      · have hpair := hvalid.unique cs hcs
        simp only [Table.push, List.append_assoc, List.singleton_append] at hpair
        exact (List.pairwise_append.1 hpair).2.2 r' hr' r List.mem_cons_self

theorem Schema.find_eq_none [DecidableEq Col] {c : Col} (hc : c ∉ schema.names) :
    schema.columns.find? (fun column => decide (column.name = c)) = none := by
  rw [List.find?_eq_none]
  intro column hcolumn
  rw [decide_eq_true_eq]
  rintro rfl
  exact hc (List.mem_map_of_mem hcolumn)

theorem Schema.fill_outside [DecidableEq Col] {values : List Value} {c : Col}
    (hinto : ∀ c ∈ into, c ∈ schema.names) (hc : c ∉ schema.names) :
    schema.fill (into.zip values) c = .null := by
  have hlookup : (into.zip values).lookup c = none := by
    rw [List.lookup_eq_none_iff]
    rintro ⟨c', v⟩ hmem
    have hc' := hinto c' (List.of_mem_zip hmem).1
    simp only [bne_iff_ne, ne_eq]
    rintro rfl
    exact hc hc'
  rw [fill, hlookup, Schema.find_eq_none hc]
  rfl

/-- Copied column by column, a row stays as it is. -/
theorem Schema.fill_copy [DecidableEq Col] (hcols : ∀ c ∈ schema.names, c ∈ cols)
    (hblank : ∀ c, c ∉ schema.names → r c = .null) : schema.fill (cols.zip (cols.map r)) = r := by
  have hlookup : ∀ (cols : List Col) (c : Col), c ∈ cols → (cols.zip (cols.map r)).lookup c = some (r c) := by
    intro cols c hc
    induction cols with
    | nil => exact absurd hc List.not_mem_nil
    | cons c' cols ih =>
      rw [List.map_cons, List.zip_cons_cons]
      by_cases heq : c = c'
      · simp [heq]
      · have hbeq : (c == c') = false := beq_false_of_ne heq
        simp [List.lookup_cons, hbeq, ih (List.mem_of_ne_of_mem heq hc)]
  funext c
  by_cases hc : c ∈ schema.names
  · rw [fill, hlookup cols c (hcols c hc)]
    rfl
  · by_cases hc' : c ∈ cols
    · rw [fill, hlookup cols c hc']
      rfl
    · rw [hblank c hc]
      have hnone : (cols.zip (cols.map r)).lookup c = none := by
        rw [List.lookup_eq_none_iff]
        rintro ⟨c', v⟩ hmem
        have hmem := (List.of_mem_zip hmem).1
        simp only [bne_iff_ne, ne_eq]
        rintro rfl
        exact hc' hmem
      rw [fill, hnone, Schema.find_eq_none hc]
      rfl

namespace Database

theorem insertSelect_valid [DecidableEq Name] [DecidableEq Col] (h : db.Valid)
    (hok : db.insertSelect n into cols source = .ok db') : db'.Valid := by
  unfold insertSelect at hok
  cases hf : db.find n with
  | none =>
    rw [hf] at hok
    cases hok
  | some t =>
    cases hf₀ : db.find source with
    | none =>
      rw [hf, hf₀] at hok
      cases hok
    | some t₀ =>
      rw [hf, hf₀] at hok
      dsimp only at hok
      obtain ⟨ht, hn⟩ := of_find hf
      split_ifs at hok with hcols
      split at hok
      · cases hok
      · rename_i t' hfold
        split_ifs at hok with hrefs
        cases hok
        have hblank : ∀ r ∈ t₀.rows.map fun r => t.schema.fill (into.zip (cols.map r)), ∀ c,
            c ∉ t.schema.names → r c = .null := by
          refine List.forall_mem_map.2 fun r _ c hc => ?_
          exact Schema.fill_outside hcols.1 hc
        obtain ⟨rfl, hvalid⟩ := (Table.foldlM_insert (h.tables t ht) hblank).1 hfold
        rw [Table.foldl_push] at hvalid hrefs ⊢
        refine h.modify hf hn hvalid (fun p hp => ⟨p, List.mem_append_left _ hp, rfl⟩) ?_
        intro r hr ref href
        rcases List.mem_append.1 hr with hr | hr
        · exact .inl (h.complete t ht r hr ref href)
        · exact .inr (hrefs r hr ref href)

end Database

end copies

/-! ## Deletions -/

section deletions
variable {Name Idx Col : Type}
  {db db' : Database Name Idx Col} {t t' : Table Name Idx Col} {n : Name}
  {gone : List (Name × Value)} {g : Name × Value} {rows : List (Row Col)}

theorem Table.Valid.sublist (h : t.Valid) (hrows : rows.Sublist t.rows) :
    ({ t with rows := rows }).Valid where
  constrained := h.constrained
  indexed := h.indexed
  blank r hr := h.blank r (hrows.subset hr)
  fits r hr := h.fits r (hrows.subset hr)
  unique cs hcs := (h.unique cs hcs).sublist hrows
  seq hauto r hr := h.seq hauto r (hrows.subset hr)
  noSeq := h.noSeq

namespace Database

/-- A valid database but for the references to rows that are gone. -/
structure Owes (db : Database Name Idx Col) (gone : List (Name × Value)) : Prop where
  names : (db.map Table.name).Nodup
  tables : ∀ t ∈ db, t.Valid
  owed : ∀ t ∈ db, ∀ r ∈ t.rows, ∀ ref ∈ t.schema.references,
    db.Refers r ref ∨ ∃ g ∈ gone, g.1 = ref.2 ∧ g.2 = r ref.1

/-- Deleting what refers to the rows that are gone leaves references to what was deleted. -/
theorem Owes.step [DecidableEq Name] (h : Owes db gone) :
    Owes (db.map (Table.kept gone)) (db.flatMap (Table.lost gone)) where
  names := by
    rw [List.map_map]
    exact h.names
  tables := List.forall_mem_map.2 fun t ht => (h.tables t ht).sublist List.filter_sublist
  owed := by
    refine List.forall_mem_map.2 fun t ht r hr ref href => ?_
    obtain ⟨hr, hkept⟩ := List.mem_filter.1 hr
    rw [decide_eq_true_eq] at hkept
    rcases h.owed t ht r hr ref href with (hnull | ⟨t₁, ht₁, hn, p, hp, hkey⟩) | hgone
    · exact .inl (.inl hnull)
    · by_cases hp' : t₁.Bound gone p
      · refine .inr ⟨(t₁.name, p t₁.schema.key), List.mem_flatMap.2 ⟨t₁, ht₁, ?_⟩, hn, hkey⟩
        exact List.mem_map_of_mem (List.mem_filter.2 ⟨hp, decide_eq_true hp'⟩)
      · refine .inl (.inr ⟨_, List.mem_map_of_mem ht₁, hn, p, ?_, hkey⟩)
        exact List.mem_filter.2 ⟨hp, decide_eq_true hp'⟩
    · exact absurd ⟨ref, href, hgone⟩ hkept

/-- A cascade that ends leaves a valid database, with none but old rows. -/
theorem cascade_valid [DecidableEq Name] : ∀ {depth : ℕ} {db : Database Name Idx Col}
    {gone : List (Name × Value)},
    Owes db gone → cascade depth db gone = some db' →
      db'.Valid ∧ ∀ t' ∈ db', ∃ t ∈ db, t.name = t'.name ∧ t'.rows ⊆ t.rows
  | 0, db, [], h, hok | depth + 1, db, [], h, hok => by
    cases hok
    refine ⟨⟨h.names, h.tables, fun t ht r hr ref href => ?_⟩, fun t ht => ⟨t, ht, rfl, List.Subset.refl _⟩⟩
    rcases h.owed t ht r hr ref href with hrefers | ⟨g, hg, -⟩
    · exact hrefers
    · exact absurd hg List.not_mem_nil
  | depth + 1, db, g :: gone, h, hok => by
    obtain ⟨hvalid, hold⟩ := cascade_valid h.step hok
    refine ⟨hvalid, fun t' ht' => ?_⟩
    obtain ⟨t₁, ht₁, hn, hsub⟩ := hold t' ht'
    obtain ⟨t, ht, rfl⟩ := List.mem_map.1 ht₁
    exact ⟨t, ht, hn, List.Subset.trans hsub List.filter_sublist.subset⟩

theorem dropTable_valid [DecidableEq Name] (h : db.Valid) (hok : db.dropTable n = .ok db') : db'.Valid := by
  unfold dropTable at hok
  cases hf : db.find n with
  | none =>
    rw [hf] at hok
    cases hok
  | some t =>
    rw [hf] at hok
    dsimp only at hok
    obtain ⟨ht, rfl⟩ := of_find hf
    split at hok
    · cases hok
    rename_i db₁ hcascade
    cases hok
    have hempty : ∀ t' ∈ db.modify t.name fun t => { t with rows := [] },
        t'.name = t.name → t'.rows = [] := by
      refine List.forall_mem_map.2 fun t' ht' => ?_
      split_ifs with hn
      · exact fun _ => rfl
      · exact fun hn' => absurd hn' hn
    have howes : Owes (db.modify t.name fun t => { t with rows := [] })
        (t.rows.map fun r => (t.name, r t.schema.key)) := by
      refine ⟨?_, List.forall_mem_map.2 fun t' ht' => ?_, fun t' ht' r hr ref href => ?_⟩
      · have hnames : (db.modify t.name fun t => { t with rows := [] }).map Table.name =
            db.map Table.name := by
          rw [Database.modify, List.map_map]
          refine List.map_congr_left fun t' _ => ?_
          rw [Function.comp_apply]
          split_ifs
          · rfl
          · rfl
        rw [hnames]
        exact h.names
      · split_ifs
        · exact (h.tables t' ht').sublist (List.nil_sublist _)
        · exact h.tables t' ht'
      · obtain ⟨t₁, ht₁, rfl⟩ := List.mem_map.1 ht'
        split_ifs at hr href with hn
        · exact absurd hr List.not_mem_nil
        · rcases h.complete t₁ ht₁ r hr ref href with hnull | ⟨t₂, ht₂, hn₂, p, hp, hkey⟩
          · exact .inl (.inl hnull)
          · by_cases hdrop : t₂.name = t.name
            · obtain rfl := h.eq_of_name ht₂ ht hdrop
              exact .inr ⟨_, List.mem_map_of_mem hp, hn₂, hkey⟩
            · refine .inl (.inr ⟨t₂, List.mem_map.2 ⟨t₂, ht₂, if_neg hdrop⟩, hn₂, p, hp, hkey⟩)
    obtain ⟨hvalid, hold⟩ := cascade_valid howes hcascade
    refine ⟨hvalid.names.sublist (List.filter_sublist.map _),
      fun t' ht' => hvalid.tables t' (List.mem_filter.1 ht').1, ?_⟩
    intro t' ht' r hr ref href
    rcases hvalid.complete t' (List.mem_filter.1 ht').1 r hr ref href with
      hnull | ⟨t₂, ht₂, hn₂, p, hp, hkey⟩
    · exact .inl hnull
    · refine .inr ⟨t₂, List.mem_filter.2 ⟨ht₂, decide_eq_true fun hn => ?_⟩, hn₂, p, hp, hkey⟩
      obtain ⟨t₃, ht₃, hn₃, hsub⟩ := hold t₂ ht₂
      have hp' := hsub hp
      rw [hempty t₃ ht₃ (hn₃.trans hn)] at hp'
      exact absurd hp' List.not_mem_nil

end Database

end deletions

/-! ## Scripts -/

section scripts
variable {Name Idx Col : Type} [DecidableEq Name] [DecidableEq Idx] [DecidableEq Col]
  {db db' : Database Name Idx Col} {t : Table Name Idx Col} {n : Name}

/-- No statement that goes through leaves a valid database invalid. -/
theorem exec_valid {stmt : Stmt Name Idx Col} (h : db.Valid) (hok : stmt.exec db = .ok db') : db'.Valid := by
  cases stmt with
  | select | pragmaForeignKeys =>
    cases hok
    exact h
  | createTable => exact Database.createTable_valid h hok
  | createIndex => exact Database.createIndex_valid h hok
  | dropIndexIfExists =>
    cases hok
    exact Database.dropIndexIfExists_valid h
  | renameTable => exact Database.renameTable_valid h hok
  | addColumn => exact Database.addColumn_valid h hok
  | insertSelect => exact Database.insertSelect_valid h hok
  | dropTable => exact Database.dropTable_valid h hok

theorem runScript_valid : ∀ {script : List (Stmt Name Idx Col)} {db : Database Name Idx Col}, db.Valid →
    runScript script db = .ok db' → db'.Valid
  | [], db, h, hok => by
    cases hok
    exact h
  | stmt :: rest, db, h, hok => by
    rw [runScript] at hok
    cases hstmt : stmt.exec db with
    | error err =>
      rw [hstmt] at hok
      cases hok
    | ok db₁ =>
      rw [hstmt] at hok
      exact runScript_valid (exec_valid h hstmt) hok

/-- A script goes on from what its first statement leaves. -/
theorem runScript_cons {stmt : Stmt Name Idx Col} {rest : List (Stmt Name Idx Col)}
    (h : stmt.exec db = .ok db') : runScript (stmt :: rest) db = runScript rest db' := by
  rw [runScript, h]
  rfl

/-- A script goes on from what its first part leaves. -/
theorem runScript_append : ∀ {first : List (Stmt Name Idx Col)} {rest : List (Stmt Name Idx Col)}
    {db : Database Name Idx Col}, runScript first db = .ok db' →
      runScript (first ++ rest) db = runScript rest db'
  | [], rest, db, h => by
    cases h
    rfl
  | stmt :: first, rest, db, h => by
    rw [runScript] at h
    cases hstmt : stmt.exec db with
    | error err =>
      rw [hstmt] at h
      cases h
    | ok db₁ =>
      rw [hstmt] at h
      rw [List.cons_append, runScript_cons hstmt]
      exact runScript_append h

/-! ## Statements that go through -/

namespace Database

/-- A unique index is made when the rows already agree with it. -/
theorem exec_createIndex {i : Idx} {ifNotExists unique : Bool} {cols : List Col} (hf : db.find n = some t)
    (hfree : i ∉ db.indexNames) (hcols : ∀ c ∈ cols, c ∈ t.schema.names)
    (hunique : t.rows.Pairwise fun r r' => ¬Agree cols r r') :
    (Stmt.createIndex i ifNotExists unique n cols).exec db =
      .ok (db.modify n fun t => { t with indexes := t.indexes ++ [⟨i, unique, cols⟩] }) := by
  rw [Stmt.exec, createIndex]
  rw [hf]
  dsimp only
  rw [if_neg hfree, if_neg (not_not.2 hcols), if_neg fun h => h.2 hunique]

/-- A copy goes through when the rows that it makes keep the constraints of the empty table `t`. -/
theorem exec_insertSelect {t₀ : Table Name Idx Col} {into cols : List Col} {source : Name}
    {f : Row Col → Row Col} (hf : db.find n = some t) (hf₀ : db.find source = some t₀)
    (hempty : t.rows = []) (ht : t.Valid) (ht₀ : t₀.Valid)
    (hinto : ∀ c ∈ into, c ∈ t.schema.names)
    (htypes : into.map t.schema.type? = cols.map t₀.schema.type?)
    (hfill : ∀ r ∈ t₀.rows, t.schema.fill (into.zip (cols.map r)) = f r)
    (hfits : ∀ r ∈ t₀.rows, t₀.schema.Fits r → t.schema.Fits (f r))
    (hunique : ∀ cs ∈ t.uniqueSets, t₀.rows.Pairwise fun r r' => ¬Agree cs (f r) (f r'))
    (hrefs : ∀ r ∈ t₀.rows, ∀ ref ∈ t.schema.references,
      (db.modify n fun _ => (t₀.rows.map f).foldl Table.push t).Refers (f r) ref) :
    (Stmt.insertSelect n into cols source).exec db =
      .ok (db.modify n fun _ => (t₀.rows.map f).foldl Table.push t) := by
  have hrows : (t₀.rows.map fun r => t.schema.fill (into.zip (cols.map r))) = t₀.rows.map f :=
    List.map_congr_left hfill
  have hblank : ∀ r ∈ t₀.rows.map f, ∀ c, c ∉ t.schema.names → r c = .null := by
    refine List.forall_mem_map.2 fun r hr c hc => ?_
    rw [← hfill r hr]
    exact Schema.fill_outside hinto hc
  have hvalid : ((t₀.rows.map f).foldl Table.push t).Valid := by
    rw [Table.foldl_push]
    refine
      { constrained := ht.constrained, indexed := ht.indexed
        blank := by rwa [hempty, List.nil_append]
        fits := ?_, unique := ?_, seq := ?_, noSeq := ?_ }
    · rw [hempty, List.nil_append]
      exact List.forall_mem_map.2 fun r hr => hfits r hr (ht₀.fits r hr)
    · intro cs hcs
      rw [hempty, List.nil_append]
      exact List.pairwise_map.2 (hunique cs hcs)
    · intro hauto r hr
      rw [hempty, List.nil_append] at hr
      simp only [if_pos hauto]
      exact (Table.le_counter _ _).2 r hr
    · intro hauto
      exact (if_neg (ne_true_of_eq_false hauto)).trans (ht.noSeq hauto)
  rw [Stmt.exec, insertSelect, hf, hf₀]
  dsimp only
  rw [if_pos ⟨hinto, htypes⟩, hrows, (Table.foldlM_insert ht hblank).2 ⟨rfl, hvalid⟩]
  exact if_pos (List.forall_mem_map.2 hrefs)

/-- A copy of all columns, between tables that differ in their indexes and references. -/
theorem exec_insertCopy {t₀ : Table Name Idx Col} {cols : List Col} {source : Name}
    (hf : db.find n = some t) (hf₀ : db.find source = some t₀) (hempty : t.rows = []) (ht : t.Valid)
    (ht₀ : t₀.Valid) (hcolumns : t.schema.columns = t₀.schema.columns) (hkey : t.schema.key = t₀.schema.key)
    (hchecks : t.schema.checks = t₀.schema.checks) (hcols : cols = t.schema.names)
    (hunique : ∀ cs ∈ t.uniqueSets, t₀.rows.Pairwise fun r r' => ¬Agree cs r r')
    (hrefs : ∀ r ∈ t₀.rows, ∀ ref ∈ t.schema.references,
      (db.modify n fun _ => t₀.rows.foldl Table.push t).Refers r ref) :
    (Stmt.insertSelect n cols cols source).exec db =
      .ok (db.modify n fun _ => t₀.rows.foldl Table.push t) := by
  have hnames : t.schema.names = t₀.schema.names := congrArg (List.map Column.name) hcolumns
  have htypes : t.schema.type? = t₀.schema.type? := by
    funext c
    rw [Schema.type?, Schema.type?, hcolumns]
  have hcopy : (Stmt.insertSelect n cols cols source).exec db =
      .ok (db.modify n fun _ => (t₀.rows.map id).foldl Table.push t) := by
    refine exec_insertSelect hf hf₀ hempty ht ht₀ (fun c hc => hcols ▸ hc) (by rw [htypes]) ?_ ?_ hunique ?_
    · exact fun r hr => Schema.fill_copy (fun c hc => hcols ▸ hc) (hnames ▸ ht₀.blank r hr)
    · exact fun r _ hr => ⟨hcolumns ▸ hr.notNull, hkey ▸ hr.key, hchecks ▸ hr.checks⟩
    · rwa [List.map_id]
  rwa [List.map_id] at hcopy

/-- A table that none refers to is dropped alone. -/
theorem exec_dropTable (hf : db.find n = some t) (hrefs : n ∉ db.referenced) :
    (Stmt.dropTable n).exec db = .ok (db.filter fun t => decide (t.name ≠ n)) := by
  have hfree : ∀ gone : List (Name × Value), (∀ g ∈ gone, g.1 = n) →
      ∀ t' ∈ db.modify n fun t => { t with rows := [] }, ∀ r, ¬t'.Bound gone r := by
    rintro gone hgone t' ht' r ⟨ref, href, g, hg, hn, -⟩
    obtain ⟨t, ht, rfl⟩ := List.mem_map.1 ht'
    have href : ref ∈ t.schema.references := by
      split_ifs at href
      · exact href
      · exact href
    refine hrefs (List.mem_flatMap.2 ⟨t, ht, List.mem_map.2 ⟨ref, href, ?_⟩⟩)
    rw [← hn, hgone g hg]
  have hcascade : ∀ gone : List (Name × Value), (∀ g ∈ gone, g.1 = n) →
      cascade cascadeDepth (db.modify n fun t => { t with rows := [] }) gone =
        some (db.modify n fun t => { t with rows := [] }) := by
    intro gone hgone
    cases gone with
    | nil => rfl
    | cons g gone =>
      have hlost : (db.modify n fun t => { t with rows := [] }).flatMap (Table.lost (g :: gone)) = [] := by
        rw [List.flatMap_eq_nil_iff]
        intro t' ht'
        simp [Table.lost, hfree _ hgone t' ht']
      have hkept : (db.modify n fun t => { t with rows := [] }).map (Table.kept (g :: gone)) =
          db.modify n fun t => { t with rows := [] } := by
        refine (List.map_congr_left fun t' ht' => ?_).trans (List.map_id _)
        cases t'
        simp [Table.kept, hfree _ hgone _ ht']
      rw [show cascadeDepth = 999 + 1 from rfl, cascade, hlost, hkept]
      rfl
  rw [Stmt.exec, dropTable, hf]
  dsimp only
  rw [hcascade _ (List.forall_mem_map.2 fun _ _ => rfl)]
  dsimp only
  rw [Database.modify, List.filter_map]
  have hfilter : db.filter ((fun t => decide (t.name ≠ n)) ∘
      fun t => if t.name = n then { t with rows := [] } else t) = db.filter fun t => decide (t.name ≠ n) := by
    refine List.filter_congr fun t' _ => ?_
    rw [Function.comp_apply]
    split_ifs
    · rfl
    · rfl
  rw [hfilter]
  refine congrArg Except.ok ((List.map_congr_left fun t' ht' => ?_).trans (List.map_id _))
  exact if_neg (of_decide_eq_true (List.mem_filter.1 ht').2)

end Database

end scripts

end Lib.Sql
