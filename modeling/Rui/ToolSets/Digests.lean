import Rui.ToolSets.Host
import Rui.Library.SortedBy

/-!
# What digests name

A record's digest gives back its identity, and a set's digest the digests of its
members, as long as none of the texts that were hashed collide.
-/

namespace Rui.ToolSets
open Library

variable {sha256 : List UInt8 → Digest} {hashed : Set (List UInt8)}

/-! ## Texts -/

theorem Owner.tagName_injective {a b : Owner} (h : a.tagName = b.tagName) : a = b := by
  cases a <;> cases b <;> first | rfl | exact absurd h (by decide)

theorem contentText_injective {a b : List UInt8} (h : contentText a = contentText b) : a = b :=
  List.append_cancel_left h

theorem setText_injective {a b : List Digest} (h : setText a = setText b) : a = b :=
  digests_injective (List.append_cancel_left h)

/-- The bounds that the checks of a catalog keep. -/
structure RecordIdentity.Bounded (identity : RecordIdentity) : Prop where
  name : identity.name.length ≤ maxToolNameBytes
  server : identity.server.length ≤ maxToolNameBytes

theorem RecordIdentity.text_injective {a b : RecordIdentity} (ha : a.Bounded) (hb : b.Bounded)
    (h : a.text = b.text) : a = b := by
  have hsmall : ∀ {value : List UInt8}, value.length ≤ maxToolNameBytes →
      value.length < 2 ^ 64 := fun hle => Nat.lt_of_le_of_lt hle (by decide)
  have htag : ∀ owner : Owner, owner.tagName.length < 2 ^ 64 := fun owner => by
    cases owner <;> simp [Owner.tagName, Library.text]
  obtain ⟨-, hrest⟩ := field_append (by decide) (by decide) h
  obtain ⟨hname, hrest⟩ := field_append (hsmall ha.name) (hsmall hb.name) hrest
  obtain ⟨howner, hrest⟩ := field_append (htag _) (htag _) hrest
  obtain ⟨hserver, hrest⟩ := field_append (hsmall ha.server) (hsmall hb.server) hrest
  obtain ⟨hdescription, hschema⟩ := List.append_inj hrest (by simp)
  obtain ⟨name, owner, server, description, inputSchema⟩ := a
  obtain ⟨name', owner', server', description', inputSchema'⟩ := b
  rw [RecordIdentity.mk.injEq]
  exact ⟨hname, Owner.tagName_injective howner, hserver, List.Vector.eq _ _ hdescription,
    List.Vector.eq _ _ hschema⟩

variable {name : List UInt8} {catalog : Catalog}

theorem validToolName_length (h : validToolName name = true) : name.length ≤ maxToolNameBytes := by
  simp only [validToolName, Bool.and_eq_true, decide_eq_true_eq] at h
  exact h.1.2

theorem validServer_length {each : Record} (h : validServer each = true) :
    each.server.length ≤ maxToolNameBytes := by
  rw [validServer] at h
  split at h
  · exact validToolName_length h
  · rw [beq_iff_eq] at h
    omega

/-! ## Catalogs -/

/-- The checks a catalog passes, as facts about its records. -/
structure Catalog.Valid (sha256 : List UInt8 → Digest) (catalog : Catalog) : Prop where
  names : ∀ each ∈ catalog.records, validToolName each.name = true
  servers : ∀ each ∈ catalog.records, validServer each = true
  ordered : SortedBy (fun each : Record => place each.name) catalog.records
  digests : catalog.digests = catalog.records.map (recordDigest sha256)

theorem Catalog.valid_iff (h : catalog.valid sha256 = true) : catalog.Valid sha256 := by
  simp only [Catalog.valid, Bool.and_eq_true, beq_iff_eq, List.all_eq_true, decide_eq_true_eq] at h
  obtain ⟨⟨⟨-, hnames⟩, hordered⟩, hdigests⟩ := h
  exact ⟨fun each hin => (hnames each hin).1, fun each hin => (hnames each hin).2,
    SortedBy.map.mp hordered, hdigests⟩

theorem Catalog.search_sound {fuel low high index : Nat}
    (h : catalog.search name fuel low high = some index) :
    ∃ each, catalog.records[index]? = some each ∧ each.name = name := by
  induction fuel generalizing low high with
  | zero => cases h
  | succ fuel ih =>
    rw [Catalog.search] at h
    split at h
    · dsimp only at h
      cases hmiddle : catalog.records[low + (high - low) / 2]? with
      | none =>
        rw [hmiddle] at h
        cases h
      | some each =>
        rw [hmiddle] at h
        dsimp only at h
        split at h
        case isTrue heq =>
          obtain rfl := Option.some.inj h
          exact ⟨each, hmiddle, place_injective heq⟩
        case isFalse =>
          split at h
          · exact ih h
          · exact ih h
    · cases h

theorem Catalog.find_sound {index : Nat} (h : catalog.find name = some index) :
    ∃ each, catalog.records[index]? = some each ∧ each.name = name :=
  search_sound h

theorem Catalog.digests_named (hvalid : catalog.Valid sha256) {names : List (List UInt8)}
    {digests : List Digest}
    (h : names.mapM (fun name => do
      let index ← catalog.find name
      catalog.digests[index]?) = some digests) :
    ∃ records : List Record, (∀ each ∈ records, each ∈ catalog.records) ∧
      records.map (·.name) = names ∧ digests = records.map (recordDigest sha256) := by
  induction names generalizing digests with
  | nil =>
    obtain rfl := Option.some.inj h
    exact ⟨[], by simp, rfl, rfl⟩
  | cons name names ih =>
    rw [List.mapM_cons] at h
    simp only [Option.bind_eq_bind, Option.bind_eq_some_iff, Option.pure_def,
      Option.some.injEq] at h
    obtain ⟨digest, ⟨index, hfind, hdigest⟩, rest, hrest, rfl⟩ := h
    obtain ⟨each, heach, hname⟩ := find_sound hfind
    obtain ⟨records, hin, hnames, hdigests⟩ := ih (by simpa using hrest)
    rw [hvalid.digests, List.getElem?_map, heach, Option.map_some, Option.some.injEq] at hdigest
    refine ⟨each :: records, ?_, by rw [List.map_cons, hname, hnames], ?_⟩
    · intro member hmember
      rcases List.mem_cons.mp hmember with rfl | hmember
      · exact List.mem_of_getElem? heach
      · exact hin member hmember
    · rw [List.map_cons, hdigests, ← hdigest]

/-- What is hashed for a catalog: its records' texts and identities, and its set. -/
def Catalog.texts (sha256 : List UInt8 → Digest) (self : Catalog) : Set (List UInt8) :=
  {text | text = setText self.digests ∨ ∃ each ∈ self.records, text = contentText each.description ∨
    text = contentText each.inputSchema ∨ text = (each.identity sha256).text}

theorem Catalog.Valid.bounded (h : catalog.Valid sha256) {each : Record}
    (hin : each ∈ catalog.records) : (each.identity sha256).Bounded :=
  ⟨validToolName_length (h.names each hin), validServer_length (h.servers each hin)⟩

/-- The lists of digests of two lists of identities are equal only for the same identities. -/
theorem identities_eq (hfree : CollisionFree sha256 hashed) {a b : List RecordIdentity}
    (ha : ∀ each ∈ a, each.Bounded ∧ each.text ∈ hashed)
    (hb : ∀ each ∈ b, each.Bounded ∧ each.text ∈ hashed)
    (h : a.map (·.digest sha256) = b.map (·.digest sha256)) : a = b := by
  induction a generalizing b with
  | nil =>
    rw [List.map_nil, eq_comm, List.map_eq_nil_iff] at h
    exact h.symm
  | cons each a ih =>
    cases b with
    | nil => cases h
    | cons each' b =>
      obtain ⟨hhead, htail⟩ := List.cons.inj h
      obtain ⟨hbound, hin⟩ := ha each List.mem_cons_self
      obtain ⟨hbound', hin'⟩ := hb each' List.mem_cons_self
      rw [RecordIdentity.text_injective hbound hbound' (hfree hin hin' hhead),
        ih (fun x hx => ha x (List.mem_cons_of_mem _ hx))
          (fun x hx => hb x (List.mem_cons_of_mem _ hx)) htail]

end Rui.ToolSets
