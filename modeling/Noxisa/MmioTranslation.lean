import Noxisa.AddressSpace
import Noxisa.MmioMapping
import Noxisa.SpawnProgram

/-!
# Where the registers of a device are found

What `map_mmio` does to the translations of the live table.  A translation is
the list of the entries that the processor goes through (`entriesOf`): it says
which frame is reached and with which bits.

A call makes missing tables and writes leaf entries.  A missing entry is on no
way that leads anywhere, so making a table changes no translation
(`TableMap.link_keeps`), whatever the tables are.  A leaf entry is on the ways
that reach its table; if that table is reached in one way only, these are the
ways of one page (`TableMap.leaf_keeps`).

`mapMmio_mapped` puts this together, for a region that starts at a page;
`MmioMapped.fits` says that for any other region the call cannot do what it
is for.
-/

namespace UserPageTable

open ByteMemory FrameAllocator MachineWord PhysicalMemory

/-- The entries that the processor goes through, from a table of level `n` down
to the leaf. -/
def entriesOf (m : Memory) : Nat → Nat → Nat → Option (List Nat)
  | 0, table, v =>
      let e := m.readWord (table + 8 * tableIndex 0 v)
      if e &&& pagePresent = 0 then none else some [e]
  | n + 1, table, v =>
      let e := m.readWord (table + 8 * tableIndex (n + 1) v)
      if e &&& pagePresent = 0 then none
      else if e &&& pageSizeBit ≠ 0 then
        if n + 1 < 3 then some [e] else none
      else (entriesOf m n (e &&& addrMask) v).map (fun es => e :: es)

/-- What the processor makes of the entries. -/
def translationOf : Nat → List Nat → Option Translation
  | n, [e] => some (leafTranslation n e)
  | n + 1, e :: es => (translationOf n es).map (fun t => t.restrict e)
  | _, _ => none

/-- A translation has at least one entry. -/
theorem entriesOf_ne_nil (m : Memory) : ∀ n table v, entriesOf m n table v ≠ some [] := by
  intro n
  cases n with
  | zero =>
      intro table v
      rw [entriesOf]
      split_ifs <;> simp
  | succ n =>
      intro table v
      rw [entriesOf]
      split_ifs <;> simp

/-- **The entries are the translation.** -/
theorem walk_entriesOf (m : Memory) :
    ∀ n table v, walk m n table v = (entriesOf m n table v).bind (translationOf n) := by
  intro n
  induction n with
  | zero =>
      intro table v
      rw [walk, entriesOf]
      split_ifs <;> rfl
  | succ n ih =>
      intro table v
      rw [walk, entriesOf]
      split_ifs
      · rfl
      · rfl
      · rfl
      · rw [ih]
        generalize m.readWord (table + 8 * tableIndex (n + 1) v) &&& addrMask = below
        cases hrest : entriesOf m n below v with
        | none => rfl
        | some es =>
            cases es with
            | nil => exact absurd hrest (entriesOf_ne_nil m n _ v)
            | cons e es => rfl

/-- The processor looks at the bits 12 to 47 of an address only. -/
theorem entriesOf_tag (m : Memory) {v w : Nat} (h : tag v = tag w) (table : Nat) :
    entriesOf m 3 table v = entriesOf m 3 table w := by
  have hindex : ∀ n < 4, tableIndex n v = tableIndex n w := by
    intro n hn
    rw [tag, pageKey, tag, pageKey] at h
    interval_cases n <;> simp only [tableIndex_eq] at h ⊢ <;> omega
  simp only [entriesOf, hindex 3 (by decide), hindex 2 (by decide), hindex 1 (by decide),
    hindex 0 (by decide)]

/-- Where an entry leads. -/
def nextOf (e : Nat) : Option Nat :=
  if e &&& pagePresent ≠ 0 ∧ e &&& pageSizeBit = 0 then some (e &&& addrMask) else none

/-- `dir n key` is the table of level `n` that is reached with the address bits
`key`.  The tables of `mine` are reached in no other way. -/
structure TableMap (mine : Nat → Nat → Prop) (root : Nat) (dir : Nat → Nat → Option Nat)
    (m : Memory) : Prop where
  top : dir 3 0 = some root
  entry : ∀ n key table i, dir (n + 1) key = some table → i < 512 →
    dir n (key * 512 + i) = nextOf (m.readWord (table + 8 * i))
  /-- a table is below another -/
  parent : ∀ n key i, n < 3 → i < 512 → (dir n (key * 512 + i)).isSome →
    (dir (n + 1) key).isSome
  alone : ∀ n key table n' key', mine n key → dir n key = some table →
    dir n' key' = some table → n' = n ∧ key' = key
  /-- the page size bit is reserved in the entries of a PML4 -/
  reserved : ∀ i < 512, m.readWord (root + 8 * i) &&& pagePresent ≠ 0 →
    m.readWord (root + 8 * i) &&& pageSizeBit = 0

section

variable {mine : Nat → Nat → Prop} {root : Nat} {dir : Nat → Nat → Option Nat} {m m' : Memory}

/-- The words of the tables on the way of an address decide its translation. -/
theorem TableMap.entriesOf_congr (h : TableMap mine root dir m) {v : Nat}
    (hsame : ∀ n table, n < 4 → dir n (pageKey (n + 1) v) = some table →
      m'.readWord (table + 8 * tableIndex n v) = m.readWord (table + 8 * tableIndex n v)) :
    ∀ n table, n < 4 → dir n (pageKey (n + 1) v) = some table →
      entriesOf m' n table v = entriesOf m n table v := by
  intro n
  induction n with
  | zero =>
      intro table _ ht
      rw [entriesOf, entriesOf, hsame 0 table (by decide) ht]
  | succ n ih =>
      intro table hn ht
      rw [entriesOf, entriesOf, hsame (n + 1) table hn ht]
      by_cases hleads : m.readWord (table + 8 * tableIndex (n + 1) v) &&& pagePresent ≠ 0 ∧
          m.readWord (table + 8 * tableIndex (n + 1) v) &&& pageSizeBit = 0
      · have hnext := h.entry n _ table _ ht (tableIndex_lt (n + 1) v)
        rw [← pageKey_succ (n := n + 1) hn, nextOf, if_pos hleads] at hnext
        rw [ih _ (by omega) hnext]
      · split_ifs with habsent hhuge <;> try rfl
        exact absurd ⟨habsent, not_not.mp hhuge⟩ hleads

/-- The tables above a table on the way of an address. -/
theorem TableMap.above (h : TableMap mine root dir m) {v n table : Nat} (hn : n < 3)
    (ht : dir n (pageKey (n + 1) v) = some table) :
    ∃ table', dir (n + 1) (pageKey (n + 2) v) = some table' ∧
      entriesOf m (n + 1) table' v = (entriesOf m n table v).map
        (fun es => m.readWord (table' + 8 * tableIndex (n + 1) v) :: es) := by
  have hkey : pageKey (n + 1) v = pageKey (n + 2) v * 512 + tableIndex (n + 1) v :=
    pageKey_succ (by omega) v
  have hsome := h.parent n _ _ hn (tableIndex_lt (n + 1) v)
    (hkey ▸ Option.isSome_of_eq_some ht)
  obtain ⟨table', ht'⟩ := Option.isSome_iff_exists.mp hsome
  have hnext := h.entry n _ table' _ ht' (tableIndex_lt (n + 1) v)
  rw [← hkey, ht, nextOf] at hnext
  refine ⟨table', ht', ?_⟩
  split_ifs at hnext with hleads
  rw [entriesOf, if_neg hleads.1, if_neg (not_not.mpr hleads.2), ← Option.some.inj hnext]

/-- Where the way of an address ends, it is not translated. -/
theorem TableMap.entriesOf_none (h : TableMap mine root dir m) {v : Nat} :
    ∀ k n table, n + k = 3 → dir n (pageKey (n + 1) v) = some table →
      entriesOf m n table v = none → entriesOf m 3 root v = none := by
  intro k
  induction k with
  | zero =>
      intro n table hn ht hnone
      obtain rfl : n = 3 := hn
      rw [pageKey_top] at ht
      obtain rfl := Option.some.inj (h.top.symm.trans ht)
      exact hnone
  | succ k ih =>
      intro n table hn ht hnone
      obtain ⟨table', ht', hentries⟩ := h.above (by omega) ht
      refine ih (n + 1) table' (by omega) ht' ?_
      rw [hentries, hnone]
      rfl

/-- An absent entry is on the way of no address that is translated. -/
theorem TableMap.entriesOf_absent (h : TableMap mine root dir m) {v n table : Nat} (hn : n < 4)
    (ht : dir n (pageKey (n + 1) v) = some table)
    (habsent : m.readWord (table + 8 * tableIndex n v) &&& pagePresent = 0) :
    entriesOf m 3 root v = none := by
  refine h.entriesOf_none (3 - n) n table (by omega) ht ?_
  cases n with
  | zero =>
      rw [entriesOf]
      exact if_pos habsent
  | succ n =>
      rw [entriesOf]
      exact if_pos habsent

/-- An address whose words are the same has the same translation. -/
theorem TableMap.entriesOf_same (h : TableMap mine root dir m) {v : Nat}
    (hsame : ∀ n table, n < 4 → dir n (pageKey (n + 1) v) = some table →
      m'.readWord (table + 8 * tableIndex n v) = m.readWord (table + 8 * tableIndex n v)) :
    entriesOf m' 3 root v = entriesOf m 3 root v := by
  refine h.entriesOf_congr hsame 3 root (by decide) ?_
  rw [pageKey_top]
  exact h.top

/-- The way to the last table leads on to the leaf. -/
theorem TableMap.entriesOf_leaf (h : TableMap mine root dir m) {v table : Nat}
    (ht : dir 0 (pageKey 1 v) = some table)
    (hpresent : m.readWord (table + 8 * tableIndex 0 v) &&& pagePresent ≠ 0) :
    ∃ up, entriesOf m 3 root v = some (up ++ [m.readWord (table + 8 * tableIndex 0 v)]) ∧
      up.length = 3 := by
  have hway : ∀ n, n < 4 → ∃ top up, dir n (pageKey (n + 1) v) = some top ∧
      entriesOf m n top v = some (up ++ [m.readWord (table + 8 * tableIndex 0 v)]) ∧
      up.length = n := by
    intro n
    induction n with
    | zero =>
        intro _
        refine ⟨table, [], ht, ?_, rfl⟩
        rw [entriesOf]
        exact if_neg hpresent
    | succ n ih =>
        intro hn
        obtain ⟨top, up, htop, hentries, hlen⟩ := ih (by omega)
        obtain ⟨top', htop', habove⟩ := h.above (by omega) htop
        refine ⟨top', m.readWord (top' + 8 * tableIndex (n + 1) v) :: up, htop', ?_, ?_⟩
        · rw [habove, hentries]
          rfl
        · rw [List.length_cons, hlen]
  obtain ⟨top, up, htop, hentries, hlen⟩ := hway 3 (by decide)
  rw [pageKey_top] at htop
  obtain rfl := Option.some.inj (h.top.symm.trans htop)
  exact ⟨up, hentries, hlen⟩

/-- The low bits of an entry for a new table. -/
theorem tableEntry_and {f b : Nat} (hf : pageSize ∣ f) (hb : b < 4096)
    (huser : pageUser &&& b = 0) :
    (f ||| pagePresent ||| pageWritable) &&& b = 7 &&& b := by
  have hor := Nat.and_or_distrib_right (f ||| pagePresent ||| pageWritable) pageUser b
  rw [huser, Nat.or_zero] at hor
  rw [← hor]
  exact openEntry_and hf b hb

/-- An entry for a table leads to it. -/
private theorem nextOf_tableEntry {f : Nat} (hf : pageSize ∣ f) (hlt : f + pageSize ≤ 2 ^ 52) :
    nextOf (f ||| pagePresent ||| pageWritable) = some f := by
  rw [nextOf, tableEntry_and hf (by decide) (by decide), tableEntry_and hf (by decide) (by decide),
    (table_entry hf hlt).1]
  rfl

/-- The memory `m'` is `m`, but for one slot and the frame `f`. -/
def OnlySlot (dir : Nat → Nat → Option Nat) (m m' : Memory) (table i : Nat) : Prop :=
  ∀ n key table' j, dir n key = some table' → j < 512 → ¬(table' = table ∧ j = i) →
    m'.readWord (table' + 8 * j) = m.readWord (table' + 8 * j)

/-- **A new table**, empty, in an absent entry of a table of `mine`. -/
theorem TableMap.link (h : TableMap mine root dir m) {n key table i f : Nat} (hn : n < 3)
    (hmine : mine (n + 1) key) (ht : dir (n + 1) key = some table) (hi : i < 512)
    (habsent : m.readWord (table + 8 * i) &&& pagePresent = 0)
    (hfresh : ∀ n' key', dir n' key' ≠ some f) (hpage : pageSize ∣ f ∧ f + pageSize ≤ 2 ^ 52)
    (hzero : ∀ j < 512, m'.readWord (f + 8 * j) = 0)
    (hslot : m'.readWord (table + 8 * i) = f ||| pagePresent ||| pageWritable)
    (hsame : OnlySlot dir m m' table i) :
    TableMap mine root (addTable dir n (key * 512 + i) f) m' := by
  have hnone : dir n (key * 512 + i) = none := by
    rw [h.entry n key table i ht hi, nextOf]
    exact if_neg (fun hleads => hleads.1 habsent)
  refine ⟨?_, ?_, ?_, ?_, ?_⟩
  · rw [addTable_other dir f (by omega)]
    exact h.top
  · intro n' key' table' j ht' hj
    rcases addTable_cases ht' with ⟨hn', rfl, rfl⟩ | ⟨-, hold⟩
    · -- the new table is empty, and nothing is below it
      have hbelow : dir n' ((key * 512 + i) * 512 + j) = none := by
        by_contra hsome
        have hparent := h.parent n' _ j (by omega) hj (Option.isSome_iff_ne_none.mpr hsome)
        rw [hn', hnone] at hparent
        cases hparent
      rw [addTable_other dir _ (by omega), hbelow, hzero j hj]
      rfl
    · by_cases hnew : table' = table ∧ j = i
      · obtain ⟨rfl, rfl⟩ := hnew
        obtain ⟨hlevel, rfl⟩ := h.alone _ _ _ _ _ hmine ht hold
        obtain rfl : n' = n := by omega
        rw [addTable_same, hslot, nextOf_tableEntry hpage.1 hpage.2]
      · have hother : ¬(n' = n ∧ key' * 512 + j = key * 512 + i) := by
          rintro ⟨rfl, hkey⟩
          obtain ⟨rfl, rfl⟩ : key' = key ∧ j = i := by omega
          exact hnew ⟨Option.some.inj (hold.symm.trans ht), rfl⟩
        rw [addTable_other dir f hother, hsame _ _ _ j hold hj hnew]
        exact h.entry _ _ _ _ hold hj
  · intro n' key' j hn' hj hsome
    have hold : (dir (n' + 1) key').isSome := by
      by_cases hnew : n' = n ∧ key' * 512 + j = key * 512 + i
      · obtain ⟨rfl, hkey⟩ := hnew
        obtain ⟨rfl, -⟩ : key' = key ∧ j = i := by omega
        rw [ht]
        rfl
      · rw [addTable_other dir f hnew] at hsome
        exact h.parent _ _ _ hn' hj hsome
    by_cases hnew : n' + 1 = n ∧ key' = key * 512 + i
    · obtain ⟨rfl, rfl⟩ := hnew
      rw [addTable_same]
      rfl
    · rw [addTable_other dir f hnew]
      exact hold
  · intro n₁ key₁ table' n₂ key₂ hmine' ht₁ ht₂
    rcases addTable_cases ht₁ with ⟨rfl, rfl, rfl⟩ | ⟨-, hold₁⟩
    · rcases addTable_cases ht₂ with ⟨hn₂, hkey₂, -⟩ | ⟨-, hold₂⟩
      · exact ⟨hn₂, hkey₂⟩
      · exact absurd hold₂ (hfresh _ _)
    · rcases addTable_cases ht₂ with ⟨-, -, rfl⟩ | ⟨-, hold₂⟩
      · exact absurd hold₁ (hfresh _ _)
      · exact h.alone _ _ _ _ _ hmine' hold₁ hold₂
  · intro j hj
    by_cases hnew : root = table ∧ j = i
    · obtain ⟨rfl, rfl⟩ := hnew
      rw [hslot]
      intro _
      exact tableEntry_and hpage.1 (by decide) (by decide)
    · rw [hsame _ _ _ j h.top hj hnew]
      exact h.reserved j hj

/-- **Making a table changes no translation.** -/
theorem TableMap.link_keeps (h : TableMap mine root dir m) {table i v : Nat} {es : List Nat}
    (habsent : m.readWord (table + 8 * i) &&& pagePresent = 0)
    (hsame : OnlySlot dir m m' table i) (hes : entriesOf m 3 root v = some es) :
    entriesOf m' 3 root v = some es := by
  rw [← hes]
  refine h.entriesOf_same (fun n table' hn ht' => ?_)
  refine hsame _ _ _ _ ht' (tableIndex_lt n v) ?_
  rintro ⟨rfl, rfl⟩
  rw [h.entriesOf_absent hn ht' habsent] at hes
  cases hes

/-- **A leaf entry** in a table of `mine`. -/
theorem TableMap.leaf (h : TableMap mine root dir m) {key table i : Nat} (hmine : mine 0 key)
    (ht : dir 0 key = some table) (hsame : OnlySlot dir m m' table i) :
    TableMap mine root dir m' := by
  refine ⟨h.top, ?_, h.parent, h.alone, ?_⟩
  · intro n key' table' j ht' hj
    have hother : ¬(table' = table ∧ j = i) := by
      rintro ⟨rfl, -⟩
      exact absurd (h.alone _ _ _ _ _ hmine ht ht').1 (Nat.succ_ne_zero n)
    rw [hsame _ _ _ j ht' hj hother]
    exact h.entry _ _ _ _ ht' hj
  · intro j hj
    have hother : ¬(root = table ∧ j = i) := by
      rintro ⟨rfl, -⟩
      exact absurd (h.alone _ _ _ _ _ hmine ht h.top).1 (by decide)
    rw [hsame _ _ _ j h.top hj hother]
    exact h.reserved j hj

/-- **Writing a leaf entry changes the translation of one page.** -/
theorem TableMap.leaf_keeps (h : TableMap mine root dir m) {table v w : Nat}
    (hmine : mine 0 (pageKey 1 v)) (ht : dir 0 (pageKey 1 v) = some table)
    (hsame : OnlySlot dir m m' table (tableIndex 0 v)) (hne : tag w ≠ tag v) :
    entriesOf m' 3 root w = entriesOf m 3 root w := by
  refine h.entriesOf_same (fun n table' hn ht' => ?_)
  refine hsame _ _ _ _ ht' (tableIndex_lt n w) ?_
  rintro ⟨rfl, hindex⟩
  obtain ⟨rfl, hkey⟩ := h.alone _ _ _ _ _ hmine ht ht'
  refine hne ?_
  rw [tag, tag, pageKey_succ (n := 0) (by decide) w, pageKey_succ (n := 0) (by decide) v, hindex]
  exact congrArg (fun k => k * 512 + tableIndex 0 v) hkey

/-- The tables are frames in use. -/
structure Live (limit : Nat) (mine : Nat → Nat → Prop) (root : Nat) (dir : Nat → Nat → Option Nat)
    (held : List Nat) (m : Memory) : Prop where
  sound : Sound limit m.pmm held
  map : TableMap mine root dir m
  own : ∀ n key table, dir n key = some table → table ∈ held

variable {ε : Type} {limit : Nat} {held : List Nat}

/-- A table that is live is a page below the limit. -/
theorem Live.page (h : Live limit mine root dir held m) {n key table : Nat}
    (ht : dir n key = some table) : pageSize ∣ table ∧ table + pageSize ≤ limit := by
  have hmem := List.mem_append_left m.pmm.freeList (h.own n key table ht)
  exact ⟨h.sound.separated.aligned table hmem, h.sound.separated.inside table hmem⟩

/-- Writing to a slot. -/
theorem Live.writeWord (h : Live limit mine root dir held m) {n key table i : Nat} (v : Nat)
    (ht : dir n key = some table) (hi : i < 512) :
    OnlySlot dir m (m.writeWord (table + 8 * i) v) table i := by
  intro n' key' table' j ht' hj hne
  obtain ⟨a, rfl⟩ := (h.page ht).1
  obtain ⟨b, rfl⟩ := (h.page ht').1
  apply readWord_writeWord_other
  simp only [pageSize] at hne ⊢
  omega

/-- **A new table** in an absent entry. -/
theorem Live.link (hl : limit ≤ 2 ^ 52) (h : Live limit mine root dir held m)
    {n key table i f : Nat} (hn : n < 3) (hmine : mine (n + 1) key)
    (ht : dir (n + 1) key = some table) (hi : i < 512)
    (habsent : m.readWord (table + 8 * i) &&& pagePresent = 0)
    (ha : m.allocFrame = (some f, m')) :
    Live limit mine root (addTable dir n (key * 512 + i) f) (f :: held)
        ((m'.zeroFrame f).writeWord (table + 8 * i) (f ||| pagePresent ||| pageWritable)) ∧
      OnlySlot dir m
        ((m'.zeroFrame f).writeWord (table + 8 * i) (f ||| pagePresent ||| pageWritable))
        table i := by
  have hmod : limit + pageSize < modulus := by
    simp only [pageSize, modulus]
    omega
  obtain ⟨p, hp, rfl⟩ := allocFrame_some ha
  have hsound := h.sound.allocFrame hmod hp
  have hmem : f ∈ (f :: held) ++ p.freeList := List.mem_append_left _ List.mem_cons_self
  have hdvd := hsound.separated.aligned f hmem
  have hbelow := (hsound.separated.inside f hmem).trans hl
  have hnew : f ∉ held :=
    (List.nodup_cons.mp (List.nodup_append'.mp hsound.separated.nodup).1).1
  have hfresh : ∀ n' key', dir n' key' ≠ some f := fun n' key' hf => hnew (h.own _ _ _ hf)
  have hlt := (table_entry hdvd hbelow).2
  -- the words of the tables are apart from the frame and the slot
  have hsame : OnlySlot dir m
      (({ m with pmm := p, trace := { m.trace with taken := f :: m.trace.taken } } :
        Memory).zeroFrame f |>.writeWord (table + 8 * i) (f ||| pagePresent ||| pageWritable))
      table i := by
    intro n' key' table' j ht' hj hne
    have hother : table' ≠ f := fun heq => hfresh _ _ (heq ▸ ht')
    obtain ⟨a, rfl⟩ := hdvd
    obtain ⟨b, rfl⟩ := (h.page ht).1
    obtain ⟨c, rfl⟩ := (h.page ht').1
    simp only [pageSize] at hne hother
    rw [readWord_writeWord_other _ _ (by simp only [pageSize]; omega),
      readWord_zeroFrame_other _ (by simp only [pageSize]; omega)]
    rfl
  have hzero : ∀ j < 512, ((({ m with
      pmm := p, trace := { m.trace with taken := f :: m.trace.taken } } :
      Memory).zeroFrame f).writeWord (table + 8 * i)
        (f ||| pagePresent ||| pageWritable)).readWord (f + 8 * j) = 0 := by
    intro j hj
    have hother : table ≠ f := fun heq => hfresh _ _ (heq ▸ ht)
    obtain ⟨a, rfl⟩ := hdvd
    obtain ⟨b, rfl⟩ := (h.page ht).1
    simp only [pageSize] at hother
    rw [readWord_writeWord_other _ _ (by simp only [pageSize]; omega)]
    exact readWord_zeroFrame_inside _ (by omega) (by simp only [pageSize]; omega)
  refine ⟨⟨hsound, ?_, ?_⟩, hsame⟩
  · exact h.map.link hn hmine ht hi habsent hfresh ⟨hdvd, hbelow⟩ hzero
      (readWord_writeWord_same _ _ hlt) hsame
  · intro n' key' table' ht'
    rcases addTable_cases ht' with ⟨-, -, rfl⟩ | ⟨-, hold⟩
    · exact List.mem_cons_self
    · exact List.mem_cons_of_mem _ (h.own _ _ _ hold)

/-- What was translated is translated as before. -/
def Preserves (root : Nat) (m m' : Memory) : Prop :=
  ∀ v es, entriesOf m 3 root v = some es → entriesOf m' 3 root v = some es

/-- The walk for `v` is at a table of level `n`; the call began with `m₀`. -/
def OnWay (limit : Nat) (mine : Nat → Nat → Prop) (root : Nat) (m₀ : Memory) (n v table : Nat)
    (m : Memory) : Prop :=
  ∃ dir held, dir n (pageKey (n + 1) v) = some table ∧ Live limit mine root dir held m ∧
    Preserves root m₀ m

/-- How one level can end: at a table one level down, or with a panic. -/
def NextOnWay (limit : Nat) (mine : Nat → Nat → Prop) (root : Nat) (m₀ : Memory) (n v : Nat)
    (o : Outcome ε Nat) (m : Memory) : Prop :=
  match o with
  | .ok next => OnWay limit mine root m₀ n v next m
  | .err _ => False
  | .panic _ => True

/-- The entry for `v` is not one for a huge page. -/
def NotHuge (n v table : Nat) (m : Memory) : Prop :=
  m.readWord (table + 8 * tableIndex n v) &&& pagePresent ≠ 0 →
    m.readWord (table + 8 * tableIndex n v) &&& pageSizeBit = 0

variable {m₀ : Memory}

/-- **One level of the walk** changes no translation. -/
theorem nextTable_onWay (hl : limit ≤ 2 ^ 52) (message : String) {n v table : Nat} (hn : n < 3)
    (hmine : mine (n + 1) (pageKey (n + 2) v)) :
    Command.Spec (fun m => OnWay limit mine root m₀ (n + 1) v table m ∧ NotHuge (n + 1) v table m)
      (nextTable message table (tableIndex (n + 1) v) : Command Memory ε Nat)
      (NextOnWay limit mine root m₀ n v) := by
  rintro m ⟨⟨dir, held, ht, h, hkeeps⟩, hsmall⟩
  have hi := tableIndex_lt (n + 1) v
  have hkey : pageKey (n + 1) v = pageKey (n + 2) v * 512 + tableIndex (n + 1) v :=
    pageKey_succ (by omega) v
  unfold nextTable
  rw [Command.gets_bind]
  by_cases habsent : m.readWord (table + 8 * tableIndex (n + 1) v) &&& pagePresent = 0
  · rw [if_pos habsent, Command.bind_apply, allocExpect]
    cases ha : m.allocFrame with
    | mk o m' =>
        cases o with
        | none => trivial
        | some f =>
            obtain ⟨hlinked, honly⟩ := h.link hl hn hmine ht hi habsent ha
            have hpage := hlinked.page (addTable_same dir n _ f)
            obtain ⟨haddr, hlt⟩ := table_entry hpage.1 (hpage.2.trans hl)
            refine ⟨_, _, ?_, hlinked, fun w es hes => ?_⟩
            · change _ = some (Memory.readWord _ (table + 8 * tableIndex (n + 1) v) &&& addrMask)
              rw [readWord_writeWord_same _ _ hlt, haddr, hkey]
              exact addTable_same dir n _ f
            · exact h.map.link_keeps habsent honly (hkeeps w es hes)
  · rw [if_neg habsent]
    have hnext := h.map.entry n _ table _ ht hi
    rw [← hkey, nextOf, if_pos ⟨habsent, hsmall habsent⟩] at hnext
    exact ⟨dir, held, hnext, h, hkeeps⟩

/-- How the check for a huge page can end. -/
def CheckedOnWay (limit : Nat) (mine : Nat → Nat → Prop) (root : Nat) (m₀ : Memory)
    (n v table : Nat) (o : Outcome ε Unit) (m : Memory) : Prop :=
  match o with
  | .ok _ => OnWay limit mine root m₀ n v table m ∧ NotHuge n v table m
  | .err _ => False
  | .panic _ => True

/-- The check of a huge page, on the way. -/
theorem refuseHuge_onWay (message : String) (n v table : Nat) :
    Command.Spec (OnWay limit mine root m₀ n v table)
      (refuseHuge message table (tableIndex n v) : Command Memory ε Unit)
      (CheckedOnWay limit mine root m₀ n v table) := by
  intro m hm
  unfold refuseHuge
  rw [Command.gets_bind]
  by_cases hhuge : m.readWord (table + 8 * tableIndex n v) &&& pagePresent ≠ 0 ∧
      m.readWord (table + 8 * tableIndex n v) &&& pageSizeBit ≠ 0
  · rw [if_pos hhuge]
    trivial
  · rw [if_neg hhuge]
    refine ⟨hm, fun hpresent => ?_⟩
    by_contra hsize
    exact hhuge ⟨hpresent, hsize⟩

/-- The bits of a leaf entry for device registers. -/
def mmioFlags : Nat := pagePresent ||| pageWritable ||| pagePcd ||| noExecute

/-- The leaf entry for the registers at `phys`. -/
def mmioEntry (phys : Nat) : Nat :=
  phys ||| pagePresent ||| pageWritable ||| pagePcd ||| noExecute

/-- An entry is the address with the flags. -/
theorem mmioEntry_eq (phys : Nat) : mmioEntry phys = phys ||| mmioFlags := by
  simp only [mmioEntry, mmioFlags, Nat.or_assoc]

/-- The flags are in it. -/
theorem mmioEntry_flags (phys : Nat) : mmioEntry phys &&& mmioFlags = mmioFlags := by
  rw [mmioEntry_eq]
  apply Nat.eq_of_testBit_eq
  intro i
  simp only [Nat.testBit_and, Nat.testBit_or]
  cases phys.testBit i <;> cases mmioFlags.testBit i <;> rfl

/-- It is present. -/
private theorem mmioEntry_present (phys : Nat) : mmioEntry phys &&& pagePresent ≠ 0 := by
  have hflags := congrArg (· &&& pagePresent) (mmioEntry_flags phys)
  have hand : mmioFlags &&& pagePresent = 1 := by decide
  simp only [Nat.and_assoc, hand] at hflags
  intro hzero
  have hone : mmioEntry phys &&& 1 = 0 := hzero
  omega

/-- The address is in it. -/
private theorem mmioEntry_addr {phys : Nat} (hphys : pageSize ∣ phys) (hlt : phys < 2 ^ 52) :
    mmioEntry phys &&& addrMask = phys := by
  obtain ⟨k, rfl⟩ := hphys
  have hflags : mmioFlags &&& addrMask = 0 := by decide
  rw [mmioEntry_eq, Nat.and_or_distrib_right, hflags, Nat.or_zero, and_addrMask]
  simp only [pageSize] at hlt ⊢
  omega

/-- It is below the reserved bits. -/
private theorem mmioEntry_lt {phys : Nat} (hlt : phys < 2 ^ 52) : mmioEntry phys < modulus := by
  rw [mmioEntry_eq]
  have hbig : phys < 2 ^ 64 := hlt.trans (by decide)
  exact Nat.or_lt_two_pow hbig (by decide)

/-- `v` is mapped to the page of registers at `phys`. -/
def MapsRegisters (root : Nat) (m : Memory) (v phys : Nat) : Prop :=
  ∃ up, entriesOf m 3 root v = some (up ++ [mmioEntry phys]) ∧ up.length = 3

/-- How the mapping of a page can end. -/
def PageMapped (limit : Nat) (mine : Nat → Nat → Prop) (root : Nat) (m₀ : Memory) (v phys : Nat)
    {α : Type} (o : Outcome ε α) (m : Memory) : Prop :=
  match o with
  | .ok _ => (∃ dir held, Live limit mine root dir held m) ∧ MapsRegisters root m v phys ∧
      ∀ w es, tag w ≠ tag v → entriesOf m₀ 3 root w = some es → entriesOf m 3 root w = some es
  | .err _ => False
  | .panic _ => True

/-- **Mapping a page** of registers changes the translation of this page only. -/
theorem mapMmioPage_mapped (hl : limit ≤ 2 ^ 52) {offset phys : Nat} (hphys : phys < 2 ^ 52)
    (hmine : ∀ n, mine n (pageKey (n + 1) (add offset phys))) :
    Command.Spec (fun m => m = m₀ ∧ ∃ dir held, Live limit mine root dir held m)
      (mapMmioPage root offset phys : Command Memory ε Unit)
      (PageMapped limit mine root m₀ (add offset phys) phys) := by
  rintro m ⟨rfl, dir, held, h⟩
  have hstart : OnWay limit mine root m 3 (add offset phys) root m := by
    refine ⟨dir, held, ?_, h, fun _ _ hes => hes⟩
    rw [pageKey_top]
    exact h.map.top
  have htop : NotHuge 3 (add offset phys) root m := h.map.reserved _ (tableIndex_lt 3 _)
  have hwalk : Command.Spec
      (fun m' => OnWay limit mine root m 3 (add offset phys) root m' ∧
        NotHuge 3 (add offset phys) root m')
      (mapMmioPage root offset phys : Command Memory ε Unit)
      (PageMapped limit mine root m (add offset phys) phys) := by
    unfold mapMmioPage
    refine (nextTable_onWay hl _ (by decide) (hmine 3)).seq (fun pdpt => ?_)
      (fun _ _ h => h) (fun _ _ h => h)
    refine (refuseHuge_onWay _ 2 (add offset phys) pdpt).seq (fun _ => ?_)
      (fun _ _ h => h) (fun _ _ h => h)
    refine (nextTable_onWay (n := 1) hl _ (by decide) (hmine 2)).seq (fun pd => ?_)
      (fun _ _ h => h) (fun _ _ h => h)
    refine (refuseHuge_onWay _ 1 (add offset phys) pd).seq (fun _ => ?_)
      (fun _ _ h => h) (fun _ _ h => h)
    refine (nextTable_onWay (n := 0) hl _ (by decide) (hmine 1)).seq (fun pt m' hm' => ?_)
      (fun _ _ h => h) (fun _ _ h => h)
    obtain ⟨dir', held', hpt, hlive, hkeeps⟩ := hm'
    have honly := hlive.writeWord (mmioEntry phys) hpt (tableIndex_lt 0 (add offset phys))
    have hleaf := hlive.map.leaf (hmine 0) hpt honly
    have hword := readWord_writeWord_same m' (pt + 8 * tableIndex 0 (add offset phys))
      (mmioEntry_lt hphys)
    refine ⟨⟨dir', held', hlive.sound, hleaf, hlive.own⟩, ?_, fun w es hne hes => ?_⟩
    · have hway := hleaf.entriesOf_leaf hpt (by rw [hword]; exact mmioEntry_present phys)
      rw [hword] at hway
      exact hway
    · have hsame := hlive.map.leaf_keeps (hmine 0) hpt honly hne
      exact hsame.trans (hkeeps w es hes)
  exact hwalk m ⟨hstart, htop⟩

end

/-- The address at which page `i` of the region is mapped. -/
def mmioVirt (offset physStart i : Nat) : Nat := add offset (mmioStart physStart + i * 0x1000)

/-- What the walks for the pages of the region see of their addresses. -/
def RegionKey (offset physStart size n key : Nat) : Prop :=
  ∃ i < mmioPages physStart size, key = pageKey (n + 1) (mmioVirt offset physStart i)

/-- **Tables that a region can be mapped in**: their frames are in use, and
those on the ways of the region are reached in one way only. -/
def Mappable (offset physStart size root : Nat) (m : Memory) : Prop :=
  ∃ limit ≤ 2 ^ 52, ∃ dir held, Live limit (RegionKey offset physStart size) root dir held m

/-- A region of pages with physical addresses, and no two of them at addresses
with the same tag. -/
structure MmioFits (offset physStart size : Nat) : Prop where
  start : pageSize ∣ physStart
  base : pageSize ∣ offset
  frames : physStart + size ≤ 2 ^ 52
  room : size ≤ 2 ^ 48

/-- **What `map_mmio` is for**: each byte of the region is reached at its
address in the direct map, in a page of registers, and other pages are mapped
as before. -/
structure MmioMapped (offset physStart size root ret : Nat) (m m' : Memory) : Prop where
  returned : ret = add offset physStart
  reaches : ∀ b < size, ∃ up e, entriesOf m' 3 root (add ret b) = some (up ++ [e]) ∧
    up.length = 3 ∧ (e &&& addrMask) + add ret b % pageSize = physStart + b ∧
    e &&& mmioFlags = mmioFlags
  kept : ∀ v, (∀ b < size, tag v ≠ tag (add ret b)) →
    ∀ es, entriesOf m 3 root v = some es → entriesOf m' 3 root v = some es

section

variable {ε : Type} {offset physStart size root ret cr3 : Nat} {m m' : Memory}

/-- The bits 0 to 47 of a sum do not depend on its wrap-around. -/
theorem tag_add (a b : Nat) : tag (add a b) = (a + b) / 4096 % 2 ^ 36 := by
  unfold tag pageKey add modulus
  omega

/-- A start that fits is not rounded. -/
theorem MmioFits.mmioStart_eq (h : MmioFits offset physStart size) :
    mmioStart physStart = physStart := by
  obtain ⟨k, rfl⟩ := h.start
  have hlt := h.frames
  rw [mmioStart, pageMask_eq (by simp only [pageSize, modulus] at hlt ⊢; omega)]
  simp only [pageSize]
  omega

/-- The pages of a region that fits, the last one perhaps in part. -/
theorem MmioFits.mmioPages_eq (h : MmioFits offset physStart size) :
    mmioPages physStart size = (size + 4095) / 4096 := by
  have hlt := h.frames
  have hstart := h.mmioStart_eq
  obtain ⟨k, rfl⟩ := h.start
  rw [mmioPages, hstart, add_eq (a := pageSize * k) (b := size) (by simp only [modulus]; omega),
    add_eq (by simp only [modulus]; omega), pageMask_eq (by simp only [modulus]; omega)]
  simp only [pageSize]
  omega

/-- The page of a byte of the region. -/
theorem MmioFits.tag_byte (h : MmioFits offset physStart size) {b : Nat} (hb : b < size) :
    b / 4096 < mmioPages physStart size ∧
      tag (add (add offset physStart) b) = tag (mmioVirt offset physStart (b / 4096)) := by
  rw [h.mmioPages_eq, mmioVirt, h.mmioStart_eq, tag_add, tag_add]
  obtain ⟨k, rfl⟩ := h.start
  obtain ⟨l, rfl⟩ := h.base
  refine ⟨by omega, ?_⟩
  unfold add modulus
  simp only [pageSize]
  omega

/-- Each page of the region has a byte of it. -/
theorem MmioFits.tag_page (h : MmioFits offset physStart size) {i : Nat}
    (hi : i < mmioPages physStart size) :
    i * 4096 < size ∧
      tag (mmioVirt offset physStart i) = tag (add (add offset physStart) (i * 4096)) := by
  rw [h.mmioPages_eq] at hi
  have hb : i * 4096 < size := by omega
  have hpage := (h.tag_byte hb).2
  rw [Nat.mul_div_cancel i (by decide)] at hpage
  exact ⟨hb, hpage.symm⟩

/-- No two pages of the region have one tag. -/
theorem MmioFits.tag_ne (h : MmioFits offset physStart size) {i j : Nat}
    (hi : i < mmioPages physStart size) (hj : j < mmioPages physStart size) (hne : i ≠ j) :
    tag (mmioVirt offset physStart i) ≠ tag (mmioVirt offset physStart j) := by
  have hroom := h.room
  rw [h.mmioPages_eq] at hi hj
  rw [mmioVirt, mmioVirt, h.mmioStart_eq, tag_add, tag_add]
  obtain ⟨k, rfl⟩ := h.start
  obtain ⟨l, rfl⟩ := h.base
  simp only [pageSize]
  omega

/-- The pages before page `k` are mapped, and the pages of others as before. -/
def RegionMapped (offset physStart size root : Nat) (m₀ : Memory) (limit k : Nat) (m : Memory) :
    Prop :=
  (∃ dir held, Live limit (RegionKey offset physStart size) root dir held m) ∧
    (∀ i < k, MapsRegisters root m (mmioVirt offset physStart i) (physStart + i * 0x1000)) ∧
    ∀ v es, (∀ i < mmioPages physStart size, tag v ≠ tag (mmioVirt offset physStart i)) →
      entriesOf m₀ 3 root v = some es → entriesOf m 3 root v = some es

/-- **One page of the region.** -/
theorem mapMmioPage_region {limit : Nat} {m₀ : Memory} (hl : limit ≤ 2 ^ 52)
    (hfits : MmioFits offset physStart size) {k : Nat} (hk : k < mmioPages physStart size) :
    Command.Spec (RegionMapped offset physStart size root m₀ limit k)
      (mapMmioPage root offset (mmioStart physStart + k * 0x1000) : Command Memory ε Unit)
      (fun o m => match o with
        | .ok _ => RegionMapped offset physStart size root m₀ limit (k + 1) m
        | .err _ => False
        | .panic _ => True) := by
  rintro m ⟨hlive, hdone, hkept⟩
  have hstart := hfits.mmioStart_eq
  have hpages := hfits.mmioPages_eq
  have hphys : mmioStart physStart + k * 0x1000 < 2 ^ 52 := by
    have hlt := hfits.frames
    omega
  have hmine : ∀ n, RegionKey offset physStart size n
      (pageKey (n + 1) (add offset (mmioStart physStart + k * 0x1000))) :=
    fun n => ⟨k, hk, rfl⟩
  have hpage := mapMmioPage_mapped (ε := ε) hl hphys hmine m ⟨rfl, hlive⟩
  cases ho : (mapMmioPage (ε := ε) root offset (mmioStart physStart + k * 0x1000) m).1 with
  | err e =>
      rw [ho] at hpage
      exact hpage
  | panic s => trivial
  | ok _ =>
      rw [ho] at hpage
      obtain ⟨hlive', hmaps, hothers⟩ := hpage
      refine ⟨hlive', fun i hi => ?_, fun v es hv hes => ?_⟩
      · by_cases hlast : i = k
        · subst hlast
          rw [hstart] at hmaps
          rw [mmioVirt, hstart]
          exact hmaps
        · obtain ⟨up, hentries, hlen⟩ := hdone i (by omega)
          refine ⟨up, hothers _ _ ?_ hentries, hlen⟩
          exact hfits.tag_ne (by omega) hk hlast
      · exact hothers v es (hv k hk) (hkept v es hv hes)

/-- **A region that fits** is mapped. -/
theorem mapMmio_mapped (hfits : MmioFits offset physStart size)
    (hmap : Mappable offset physStart size (cr3 &&& addrMask) m)
    (hrun : (mapMmio cr3 offset physStart size : Command Memory ε Nat) m = (.ok ret, m')) :
    MmioMapped offset physStart size (cr3 &&& addrMask) ret m m' := by
  obtain ⟨limit, hl, dir, held, hlive⟩ := hmap
  have hloop := @Command.Spec.forRange _ ε
    (RegionMapped offset physStart size (cr3 &&& addrMask) m limit)
    (fun o _ => match o with
      | .ok _ => True
      | .err _ => False
      | .panic _ => True)
    (fun i => mapMmioPage (cr3 &&& addrMask) offset (mmioStart physStart + i * 0x1000))
    0 (mmioPages physStart size)
    (fun i _ hi => mapMmioPage_region hl hfits (by omega)) m
    ⟨⟨dir, held, hlive⟩, fun i hi => absurd hi (Nat.not_lt_zero i), fun _ _ _ hes => hes⟩
  unfold mapMmio at hrun
  obtain ⟨_, t, hdone, hreturn⟩ := Command.bind_eq_ok.mp hrun
  obtain ⟨hret, rfl⟩ := Prod.mk.inj hreturn
  rw [hdone] at hloop
  obtain ⟨-, hmapped, hkept⟩ := hloop
  rw [Nat.zero_add] at hmapped
  have hret' : ret = add offset physStart := by
    rw [← Outcome.ok.inj hret, hfits.mmioStart_eq]
  refine ⟨hret', fun b hb => ?_, fun v hv es hes => ?_⟩
  · obtain ⟨hpage, htag⟩ := hfits.tag_byte hb
    obtain ⟨up, hentries, hlen⟩ := hmapped _ hpage
    have hframes := hfits.frames
    have hdvd : pageSize ∣ physStart + b / 4096 * 0x1000 :=
      Dvd.dvd.add hfits.start (Dvd.intro_left _ rfl)
    refine ⟨up, mmioEntry (physStart + b / 4096 * 0x1000), ?_, hlen, ?_, mmioEntry_flags _⟩
    · rw [hret', entriesOf_tag t htag]
      exact hentries
    · rw [mmioEntry_addr hdvd (by omega), hret']
      obtain ⟨k, rfl⟩ := hfits.start
      obtain ⟨l, rfl⟩ := hfits.base
      unfold add modulus
      simp only [pageSize]
      omega
  · refine hkept v es (fun i hi => ?_) hes
    obtain ⟨hb, htag⟩ := hfits.tag_page hi
    rw [htag, ← hret']
    exact hv _ hb

/-- **No other region** can be mapped, whatever the tables are. -/
theorem MmioMapped.fits (hphys : physStart < modulus) (hsize : 0 < size)
    (hrun : (mapMmio cr3 offset physStart size : Command Memory ε Nat) m = (.ok ret, m'))
    (h : MmioMapped offset physStart size root ret m m') : MmioFits offset physStart size := by
  unfold mapMmio at hrun
  obtain ⟨_, t, -, hreturn⟩ := Command.bind_eq_ok.mp hrun
  have hret : add offset (mmioStart physStart) = ret := Outcome.ok.inj (Prod.mk.inj hreturn).1
  have hstart : pageSize ∣ physStart := by
    have hsame := hret.trans h.returned
    rw [mmioStart, pageMask_eq hphys] at hsame
    unfold add at hsame
    unfold modulus at hsame hphys
    unfold pageSize
    omega
  have haddr : ∀ e, ∃ k, e &&& addrMask = k * 4096 ∧ k < 2 ^ 40 := by
    intro e
    rw [and_addrMask]
    exact ⟨_, rfl, Nat.mod_lt _ (by decide)⟩
  refine ⟨hstart, ?_, ?_, ?_⟩
  · obtain ⟨up, e, -, -, hbyte, -⟩ := h.reaches 0 hsize
    obtain ⟨k, hk, -⟩ := haddr e
    rw [hk, h.returned] at hbyte
    obtain ⟨l, rfl⟩ := hstart
    unfold add at hbyte
    unfold modulus at hbyte
    unfold pageSize at hbyte ⊢
    omega
  · obtain ⟨up, e, -, -, hbyte, -⟩ := h.reaches (size - 1) (by omega)
    obtain ⟨k, hk, hlt⟩ := haddr e
    rw [hk] at hbyte
    have hmod := Nat.mod_lt (add ret (size - 1)) (show 0 < pageSize by decide)
    unfold pageSize at hbyte hmod
    omega
  · by_contra hbig
    -- the first byte and the one at `2 ^ 48` have one tag, and one frame
    obtain ⟨up, e, hentries, -, hbyte, -⟩ := h.reaches 0 hsize
    obtain ⟨up', e', hentries', -, hbyte', -⟩ := h.reaches (2 ^ 48) (by omega)
    have htag : tag (add ret (2 ^ 48)) = tag (add ret 0) := by
      rw [tag_add, tag_add]
      omega
    rw [entriesOf_tag m' htag, hentries] at hentries'
    obtain ⟨-, hleaf⟩ := List.append_inj' (Option.some.inj hentries') rfl
    obtain rfl : e = e' := (List.cons.inj hleaf).1
    have hmod : add ret (2 ^ 48) % pageSize = add ret 0 % pageSize := by
      unfold add modulus pageSize
      omega
    rw [hmod] at hbyte'
    omega

/-- **When `map_mmio` maps a region.**  It does so only if the region fits, and
if it fits, in all tables in which it can be mapped. -/
theorem mapMmio_iff (hphys : physStart < modulus) (hsize : 0 < size)
    (hrun : (mapMmio cr3 offset physStart size : Command Memory ε Nat) m = (.ok ret, m')) :
    (MmioMapped offset physStart size (cr3 &&& addrMask) ret m m' →
        MmioFits offset physStart size) ∧
      (Mappable offset physStart size (cr3 &&& addrMask) m → MmioFits offset physStart size →
        MmioMapped offset physStart size (cr3 &&& addrMask) ret m m') :=
  ⟨fun h => h.fits hphys hsize hrun, fun hmap hfits => mapMmio_mapped hfits hmap hrun⟩

end

/-- The tables of the shell: the PML4 at `0x1000`, and an empty one for entry 256. -/
def shellDir (n key : Nat) : Option Nat :=
  if n = 3 ∧ key = 0 then some 0x1000 else if n = 2 ∧ key = 256 then some 0x2000 else none

/-- The two tables of the sample kernel. -/
theorem shellDir_cases {n key table : Nat} (h : shellDir n key = some table) :
    (n = 3 ∧ key = 0 ∧ table = 0x1000) ∨ (n = 2 ∧ key = 256 ∧ table = 0x2000) := by
  unfold shellDir at h
  split_ifs at h with htop hbelow
  · exact Or.inl ⟨htop.1, htop.2, (Option.some.inj h).symm⟩
  · exact Or.inr ⟨hbelow.1, hbelow.2, (Option.some.inj h).symm⟩

/-- They are its table map. -/
theorem shell_tableMap (mine : Nat → Nat → Prop) :
    TableMap mine 0x1000 shellDir Scheduler.shellKernel.mem := by
  have htop : ∀ i < 512, shellDir 2 (0 * 512 + i) =
      nextOf (Scheduler.shellKernel.mem.readWord (0x1000 + 8 * i)) := by decide +kernel
  have hbelow : ∀ i < 512, Scheduler.shellKernel.mem.readWord (0x2000 + 8 * i) = 0 := by
    decide +kernel
  have hreserved : ∀ i < 512,
      Scheduler.shellKernel.mem.readWord (0x1000 + 8 * i) &&& pagePresent ≠ 0 →
        Scheduler.shellKernel.mem.readWord (0x1000 + 8 * i) &&& pageSizeBit = 0 := by
    decide +kernel
  refine ⟨rfl, ?_, ?_, ?_, hreserved⟩
  · intro n key table i ht hi
    rcases shellDir_cases ht with ⟨hn, rfl, rfl⟩ | ⟨hn, rfl, rfl⟩
    · obtain rfl : n = 2 := by omega
      exact htop i hi
    · obtain rfl : n = 1 := by omega
      rw [hbelow i hi]
      unfold shellDir
      rw [if_neg (by omega), if_neg (by omega)]
      rfl
  · intro n key i hn hi hsome
    obtain ⟨table, ht⟩ := Option.isSome_iff_exists.mp hsome
    rcases shellDir_cases ht with ⟨hn', -, -⟩ | ⟨rfl, hkey, -⟩
    · omega
    · obtain rfl : key = 0 := by omega
      rfl
  · intro n key table n' key' _ ht ht'
    rcases shellDir_cases ht with ⟨rfl, rfl, rfl⟩ | ⟨rfl, rfl, rfl⟩ <;>
      rcases shellDir_cases ht' with ⟨hn, hkey, htable⟩ | ⟨hn, hkey, htable⟩ <;> omega

/-- The tables of the shell are in use. -/
theorem shell_sound : Sound (2 ^ 47) Scheduler.shellKernel.mem.pmm [0x1000, 0x2000] := by
  have hroot : InUse (2 ^ 47) Scheduler.shellKernel.mem.pmm 0x1000 :=
    Scheduler.shellKernel_cr3_inUse
  have hunbumped : unbumped Scheduler.shellKernel.mem.pmm = [⟨0x400000, 0x500000⟩] := by
    decide +kernel
  have htable : InUse (2 ^ 47) Scheduler.shellKernel.mem.pmm 0x2000 := by
    refine ⟨by decide, by decide +kernel, ?_⟩
    rw [← space_unbumped, hunbumped, Set.disjoint_left]
    rintro x ⟨-, hx⟩ ⟨r, hr, hlo, -⟩
    obtain rfl := List.mem_singleton.mp hr
    simp only [pageSize] at hx hlo
    omega
  have hboot : Sound (2 ^ 47) Scheduler.shellKernel.mem.pmm [] :=
    bootPmm_sound (by decide) (by decide) Scheduler.lowMap
  have hone := hboot.cons (by decide) htable (by simp)
  exact hone.cons (by decide) hroot (by decide)

/-- There everything that fits is mappable. -/
theorem shell_mappable (offset physStart size : Nat) :
    Mappable offset physStart size 0x1000 Scheduler.shellKernel.mem := by
  refine ⟨2 ^ 47, by decide, shellDir, _, shell_sound, shell_tableMap _, ?_⟩
  intro n key table ht
  rcases shellDir_cases ht with ⟨-, -, rfl⟩ | ⟨-, -, rfl⟩ <;> simp

/-- A page and a half of registers. -/
theorem sample_mapMmio : ∃ ret m',
    (mapMmio 0x1000 0xFFFF800000000000 0xFEB00000 0x1800 : Command Memory Empty Nat)
      Scheduler.shellKernel.mem = (.ok ret, m') ∧
    MmioMapped 0xFFFF800000000000 0xFEB00000 0x1800 0x1000 ret Scheduler.shellKernel.mem m' := by
  have hok : ((mapMmio 0x1000 0xFFFF800000000000 0xFEB00000 0x1800 : Command Memory Empty Nat)
      Scheduler.shellKernel.mem).1 = .ok 0xFFFF8000FEB00000 := by decide +kernel
  obtain ⟨m', hrun⟩ := Command.exists_of_fst hok
  refine ⟨_, m', hrun, ?_⟩
  exact (mapMmio_iff (by decide) (by decide) hrun).2 (shell_mappable _ _ _)
    ⟨by decide, by decide, by decide, by decide⟩

/-- **Registers that do not start at a page**: the address of the page is
returned. -/
theorem mapMmio_not_mapped : ∃ ret m',
    (mapMmio 0x1000 0xFFFF800000000000 0xFEB00010 16 : Command Memory Empty Nat)
      Scheduler.shellKernel.mem = (.ok ret, m') ∧
    Mappable 0xFFFF800000000000 0xFEB00010 16 0x1000 Scheduler.shellKernel.mem ∧
    ¬MmioMapped 0xFFFF800000000000 0xFEB00010 16 0x1000 ret Scheduler.shellKernel.mem m' := by
  have hok : ((mapMmio 0x1000 0xFFFF800000000000 0xFEB00010 16 : Command Memory Empty Nat)
      Scheduler.shellKernel.mem).1 = .ok 0xFFFF8000FEB00000 := by decide +kernel
  obtain ⟨m', hrun⟩ := Command.exists_of_fst hok
  refine ⟨_, m', hrun, shell_mappable _ _ _, fun h => ?_⟩
  have hreturned := h.returned
  revert hreturned
  decide +kernel

end UserPageTable
