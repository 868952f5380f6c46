import Utsuite.ByteWords

namespace Utsuite.WireFormat

open ByteWords List

structure Stream (σ : Type) where
  read : Nat → σ → Option (Bytes × σ)

def front : Stream Bytes where
  read size bytes :=
    if size ≤ bytes.length then some (bytes.take size, bytes.drop size) else none

structure Format (α : Type) where
  write : α → Bytes
  count : α → Nat → Nat
  read : {σ : Type} → Stream σ → σ → Option (α × σ)

variable {α β σ τ : Type}

/-- Whatever can be read from `t` can be read from a state `s` related to it, and the states stay
related. -/
def Follows (R : σ → τ → Prop) (read : σ → Option (α × σ)) (read' : τ → Option (α × τ)) : Prop :=
  ∀ s t, R s t → ∀ a t', read' t = some (a, t') → ∃ s', read s = some (a, s') ∧ R s' t'

def Simulates (S : Stream σ) (T : Stream τ) (R : σ → τ → Prop) : Prop :=
  ∀ size, Follows R (S.read size) (T.read size)

/-- Reading undoes writing on `dom`, and it accepts nothing but what is written. -/
structure Format.Canonical (f : Format α) (dom : α → Prop) : Prop where
  count_eq : ∀ a n, n < 2 ^ 64 → f.count a n = (n + (f.write a).length) % 2 ^ 64
  read_write : ∀ a rest, dom a → f.read front (f.write a ++ rest) = some (a, rest)
  write_read : ∀ bytes a rest, f.read front bytes = some (a, rest) →
    dom a ∧ bytes = f.write a ++ rest
  natural : ∀ {σ τ : Type} {S : Stream σ} {T : Stream τ} {R : σ → τ → Prop}, Simulates S T R →
    Follows R (f.read S) (f.read T)

def Format.pair (f : Format α) (g : Format β) : Format (α × β) where
  write p := f.write p.1 ++ g.write p.2
  count p n := g.count p.2 (f.count p.1 n)
  read S s := do
    let (a, s) ← f.read S s
    let (b, s) ← g.read S s
    pure ((a, b), s)

def Format.iso (f : Format α) (pack : α → β) (unpack : β → α) : Format β where
  write b := f.write (unpack b)
  count b n := f.count (unpack b) n
  read S s := do
    let (a, s) ← f.read S s
    pure (pack a, s)

def blob (size : Nat) : Format Bytes where
  write bytes := bytes
  count bytes n := (n + bytes.length) % 2 ^ 64
  read S s := S.read size s

def array (size : Nat) : Format {bytes : Bytes // bytes.length = size} :=
  (blob size).iso
    (fun bytes => if h : bytes.length = size then ⟨bytes, h⟩ else zeroBytes size)
    Subtype.val

def word (width : Nat) : Format Nat :=
  (blob width).iso leValue (leBytes width)

def readItems (f : Format α) (S : Stream σ) : Nat → σ → Option (List α × σ)
  | 0, s => some ([], s)
  | size + 1, s => do
    let (a, s) ← f.read S s
    let (as, s) ← readItems f S size s
    pure (a :: as, s)

def readBlocks (read : Nat → σ → Option (List α × σ)) (step : Nat) :
    Nat → Nat → σ → Option (List α × σ)
  | _, 0, s => some ([], s)
  | 0, _ + 1, _ => none
  | rounds + 1, size + 1, s => do
    let (as, s) ← read (min (size + 1) step) s
    let (bs, s) ← readBlocks read step rounds (size + 1 - min (size + 1) step) s
    pure (as ++ bs, s)

def blobInBlocks (step size : Nat) : Format Bytes where
  write bytes := bytes
  count bytes n := (n + bytes.length) % 2 ^ 64
  read S s := readBlocks (fun size s => S.read size s) step size size s

def itemsInBlocks (f : Format α) (step size : Nat) : Format (List α) where
  write as := as.flatMap f.write
  count as n := as.foldl (fun n a => f.count a n) n
  read S s := readBlocks (readItems f S) step size size s

def Format.sized (length : Format Nat) (body : Nat → Format (List α)) : Format (List α) where
  write as := length.write as.length ++ (body as.length).write as
  count as n := (body as.length).count as (length.count as.length n)
  read S s := do
    let (size, s) ← length.read S s
    (body size).read S s

def readAll (f : Format α) (S : Stream σ) (empty : σ → Bool) : Nat → σ → Option (List α)
  | 0, s => if empty s then some [] else none
  | rounds + 1, s =>
    if empty s then some []
    else do
      let (a, s) ← f.read S s
      let as ← readAll f S empty rounds s
      pure (a :: as)

theorem Follows.bind {R : σ → τ → Prop} {read : σ → Option (α × σ)} {read' : τ → Option (α × τ)}
    (h : Follows R read read') {next : α → σ → Option (β × σ)} {next' : α → τ → Option (β × τ)}
    (hnext : ∀ a, Follows R (next a) (next' a)) :
    Follows R (fun s => (read s).bind fun x => next x.1 x.2)
      fun t => (read' t).bind fun x => next' x.1 x.2 := by
  intro s t hst b t'' hread
  obtain ⟨⟨a, t'⟩, ha, hb⟩ := Option.bind_eq_some_iff.mp hread
  obtain ⟨s', hs, hst'⟩ := h s t hst a t' ha
  obtain ⟨s'', hs', hst''⟩ := hnext a s' t' hst' b t'' hb
  exact ⟨s'', Option.bind_eq_some_iff.mpr ⟨(a, s'), hs, hs'⟩, hst''⟩

theorem Follows.pure (a : α) : Follows R (fun s => some (a, s)) fun t => some (a, t) := by
  rintro s t hst _ _ ⟨⟩
  exact ⟨s, rfl, hst⟩

theorem Follows.ite {R : σ → τ → Prop} (c : Prop) [Decidable c] {read : σ → Option (α × σ)}
    {read' : τ → Option (α × τ)} (h : ¬c → Follows R read read') :
    Follows R (fun s => if c then none else read s) fun t => if c then none else read' t := by
  by_cases hc : c
  · simp only [if_pos hc]
    exact nofun
  · simp only [if_neg hc]
    exact h hc

theorem Format.Canonical.pair {f : Format α} {g : Format β} {p : α → Prop} {q : β → Prop}
    (hf : f.Canonical p) (hg : g.Canonical q) :
    (f.pair g).Canonical fun x => p x.1 ∧ q x.2 where
  count_eq x n hn := by
    change g.count x.2 (f.count x.1 n) = (n + (f.write x.1 ++ g.write x.2).length) % 2 ^ 64
    rw [hf.count_eq x.1 n hn, hg.count_eq x.2 _ (Nat.mod_lt _ (by decide)), length_append,
      Nat.mod_add_mod, add_assoc]
  read_write x rest hx := by
    change (f.read front ((f.write x.1 ++ g.write x.2) ++ rest)).bind _ = _
    rw [append_assoc, hf.read_write x.1 _ hx.1, Option.bind_some]
    change (g.read front (g.write x.2 ++ rest)).bind _ = _
    rw [hg.read_write x.2 rest hx.2]
    rfl
  write_read bytes x rest h := by
    obtain ⟨⟨a, mid⟩, ha, h⟩ := Option.bind_eq_some_iff.mp h
    obtain ⟨⟨b, tail⟩, hb, h⟩ := Option.bind_eq_some_iff.mp h
    cases h
    obtain ⟨hp, rfl⟩ := hf.write_read _ _ _ ha
    obtain ⟨hq, rfl⟩ := hg.write_read _ _ _ hb
    exact ⟨⟨hp, hq⟩, (append_assoc _ _ _).symm⟩
  natural h := (hf.natural h).bind fun a => (hg.natural h).bind fun b => .pure (a, b)

theorem Format.Canonical.iso {f : Format α} {p : α → Prop} (hf : f.Canonical p) {pack : α → β}
    {unpack : β → α} {q : β → Prop} (hpack : ∀ b, q b → pack (unpack b) = b ∧ p (unpack b))
    (hunpack : ∀ a, p a → unpack (pack a) = a ∧ q (pack a)) :
    (f.iso pack unpack).Canonical q where
  count_eq b n hn := hf.count_eq (unpack b) n hn
  read_write b rest hb := by
    change (f.read front (f.write (unpack b) ++ rest)).bind _ = _
    rw [hf.read_write _ rest (hpack b hb).2, Option.bind_some]
    change some (pack (unpack b), rest) = _
    rw [(hpack b hb).1]
  write_read bytes b rest h := by
    obtain ⟨⟨a, tail⟩, ha, h⟩ := Option.bind_eq_some_iff.mp h
    cases h
    obtain ⟨hp, rfl⟩ := hf.write_read _ _ _ ha
    change q (pack a) ∧ f.write a ++ rest = f.write (unpack (pack a)) ++ rest
    rw [(hunpack a hp).1]
    exact ⟨(hunpack a hp).2, rfl⟩
  natural h := (hf.natural h).bind fun a => .pure (pack a)

theorem front_read_append (h : bytes.length = size) (rest : Bytes) :
    front.read size (bytes ++ rest) = some (bytes, rest) := by
  subst h
  have hle : bytes.length ≤ (bytes ++ rest).length := by
    rw [length_append]
    exact Nat.le_add_right _ _
  dsimp only [front]
  rw [if_pos hle, take_left, drop_left]

theorem front_read_some (h : front.read size bytes = some (a, rest)) :
    a.length = size ∧ bytes = a ++ rest := by
  dsimp only [front] at h
  by_cases hlen : size ≤ bytes.length
  · rw [if_pos hlen] at h
    cases h
    exact ⟨length_take_of_le hlen, (take_append_drop size bytes).symm⟩
  · rw [if_neg hlen] at h
    cases h

theorem blob_canonical (size : Nat) : (blob size).Canonical fun bytes => bytes.length = size where
  count_eq _ _ _ := rfl
  read_write _ rest hlen := front_read_append hlen rest
  write_read _ _ _ h := front_read_some h
  natural h := h size

theorem array_canonical (size : Nat) : (array size).Canonical fun _ => True := by
  refine (blob_canonical size).iso (fun bytes _ => ?_) fun bytes hlen => ?_
  · exact ⟨dif_pos bytes.property, bytes.property⟩
  · rw [dif_pos hlen]
    exact ⟨rfl, trivial⟩

theorem word_canonical (width : Nat) : (word width).Canonical fun n => n < 256 ^ width := by
  refine (blob_canonical width).iso (fun n hn => ?_) fun bytes hlen => ?_
  · exact ⟨(leValue_leBytes width n).trans (Nat.mod_eq_of_lt hn), leBytes_length width n⟩
  · subst hlen
    exact ⟨leBytes_leValue bytes, leValue_lt bytes⟩

def Splits (read : Nat → σ → Option (List α × σ)) : Prop :=
  (∀ s, read 0 s = some ([], s)) ∧
  ∀ m n s, read (m + n) s = (do
    let (as, s) ← read m s
    let (bs, s) ← read n s
    pure (as ++ bs, s))

theorem readBlocks_eq {read : Nat → σ → Option (List α × σ)} (hread : Splits read)
    (hstep : 0 < step) (h : size ≤ rounds) (s : σ) :
    readBlocks read step rounds size s = read size s := by
  induction rounds generalizing size s with
  | zero =>
    obtain rfl := Nat.le_zero.mp h
    rw [hread.1]
    rfl
  | succ rounds ih =>
    cases size with
    | zero =>
      rw [hread.1]
      rfl
    | succ size =>
      have hmin : 0 < min (size + 1) step := Nat.lt_min.mpr ⟨Nat.succ_pos _, hstep⟩
      have hle : min (size + 1) step ≤ size + 1 := Nat.min_le_left _ _
      have hsplit := hread.2 (min (size + 1) step) (size + 1 - min (size + 1) step) s
      rw [Nat.add_sub_of_le hle] at hsplit
      rw [readBlocks, hsplit]
      congr 1
      funext x
      rcases x with ⟨as, s⟩
      dsimp only
      rw [ih (by omega)]

theorem readBlocks_natural {R : σ → τ → Prop} {read : Nat → σ → Option (List α × σ)}
    {read' : Nat → τ → Option (List α × τ)} (h : ∀ size, Follows R (read size) (read' size))
    (step rounds size : Nat) :
    Follows R (readBlocks read step rounds size) (readBlocks read' step rounds size) := by
  induction rounds generalizing size with
  | zero =>
    cases size with
    | zero => exact .pure []
    | succ size => exact nofun
  | succ rounds ih =>
    cases size with
    | zero => exact .pure []
    | succ size => exact (h _).bind fun as => (ih _).bind fun bs => .pure (as ++ bs)

theorem front_splits : Splits fun size s => front.read size s := by
  refine ⟨fun bytes => rfl, fun m n bytes => ?_⟩
  dsimp only [front]
  by_cases hm : m ≤ bytes.length
  · have hiff : m + n ≤ bytes.length ↔ n ≤ (bytes.drop m).length := by
      rw [length_drop]
      omega
    rw [if_pos hm]
    change _ = (if n ≤ (bytes.drop m).length then _ else none : Option (Bytes × Bytes)).bind _
    by_cases hn : n ≤ (bytes.drop m).length
    · rw [if_pos hn, if_pos (hiff.mpr hn), take_add, ← drop_drop]
      rfl
    · rw [if_neg hn, if_neg fun h => hn (hiff.mp h)]
      rfl
  · rw [if_neg hm, if_neg fun h => hm (le_trans (Nat.le_add_right m n) h)]
    rfl

theorem blobInBlocks_canonical {step : Nat} (hstep : 0 < step) (size : Nat) :
    (blobInBlocks step size).Canonical fun bytes => bytes.length = size where
  count_eq _ _ _ := rfl
  read_write _ rest hlen :=
    (readBlocks_eq front_splits hstep le_rfl _).trans (front_read_append hlen rest)
  write_read bytes _ _ h :=
    front_read_some ((readBlocks_eq front_splits hstep le_rfl bytes).symm.trans h)
  natural h := readBlocks_natural h step size size

theorem readItems_splits (f : Format α) (S : Stream σ) : Splits (readItems f S) := by
  refine ⟨fun _ => rfl, fun m n s => ?_⟩
  induction m generalizing s with
  | zero =>
    rw [zero_add]
    change _ = (readItems f S n s).bind _
    cases readItems f S n s <;> rfl
  | succ m ih =>
    rw [Nat.succ_add, readItems, readItems]
    cases f.read S s with
    | none => rfl
    | some x =>
      rcases x with ⟨a, s⟩
      change (readItems f S (m + n) s).bind _ = ((readItems f S m s).bind _).bind _
      rw [ih]
      cases readItems f S m s with
      | none => rfl
      | some y =>
        rcases y with ⟨as, s⟩
        change ((readItems f S n s).bind _).bind _ = (readItems f S n s).bind _
        cases readItems f S n s <;> rfl

theorem readItems_write (hf : f.Canonical p) (has : ∀ a ∈ as, p a) (rest : Bytes) :
    readItems f front as.length (as.flatMap f.write ++ rest) = some (as, rest) := by
  induction as with
  | nil => rfl
  | cons a as ih =>
    have hrest := ih fun b hb => has b (mem_cons_of_mem _ hb)
    rw [flatMap_cons, append_assoc, length_cons, readItems,
      hf.read_write a _ (has a mem_cons_self)]
    change (readItems f front as.length _).bind _ = _
    rw [hrest]
    rfl

theorem write_readItems (hf : f.Canonical p) (h : readItems f front size bytes = some (as, rest)) :
    (as.length = size ∧ ∀ a ∈ as, p a) ∧ bytes = as.flatMap f.write ++ rest := by
  induction size generalizing bytes as with
  | zero =>
    cases h
    exact ⟨⟨rfl, fun _ ha => absurd ha not_mem_nil⟩, rfl⟩
  | succ size ih =>
    obtain ⟨⟨a, mid⟩, ha, h⟩ := Option.bind_eq_some_iff.mp h
    obtain ⟨⟨tail, last⟩, htail, h⟩ := Option.bind_eq_some_iff.mp h
    cases h
    obtain ⟨hp, rfl⟩ := hf.write_read _ _ _ ha
    obtain ⟨⟨hlen, hall⟩, rfl⟩ := ih htail
    refine ⟨⟨congrArg Nat.succ hlen, forall_mem_cons.mpr ⟨hp, hall⟩⟩, ?_⟩
    rw [flatMap_cons, append_assoc]

theorem readItems_natural {p : α → Prop} (hf : f.Canonical p) {R : σ → τ → Prop}
    (h : Simulates S T R) (size : Nat) : Follows R (readItems f S size) (readItems f T size) := by
  induction size with
  | zero => exact .pure []
  | succ size ih => exact (hf.natural h).bind fun a => ih.bind fun as => .pure (a :: as)

theorem itemsInBlocks_canonical {p : α → Prop} (hf : f.Canonical p) (hstep : 0 < step)
    (size : Nat) :
    (itemsInBlocks f step size).Canonical fun as => as.length = size ∧ ∀ a ∈ as, p a where
  count_eq as n hn := by
    change as.foldl (fun n a => f.count a n) n = (n + (as.flatMap f.write).length) % 2 ^ 64
    induction as generalizing n with
    | nil => exact (Nat.mod_eq_of_lt hn).symm
    | cons a as ih =>
      rw [foldl_cons, hf.count_eq a n hn, ih _ (Nat.mod_lt _ (by decide)),
        flatMap_cons, length_append, Nat.mod_add_mod, add_assoc]
  read_write as rest h := by
    obtain ⟨rfl, hall⟩ := h
    refine (readBlocks_eq (readItems_splits f front) hstep le_rfl _).trans ?_
    exact readItems_write hf hall rest
  write_read bytes as rest h := by
    refine write_readItems hf ?_
    exact (readBlocks_eq (readItems_splits f front) hstep le_rfl bytes).symm.trans h
  natural h := readBlocks_natural (readItems_natural hf h) step size size

theorem sized_canonical {length : Format Nat} {p : Nat → Prop} (hlength : length.Canonical p)
    {body : Nat → Format (List α)} {q : List α → Prop}
    (hbody : ∀ size, (body size).Canonical fun as => as.length = size ∧ q as) :
    (length.sized body).Canonical fun as => p as.length ∧ q as where
  count_eq as n hn := by
    change (body as.length).count as (length.count as.length n) =
      (n + (length.write as.length ++ (body as.length).write as).length) % 2 ^ 64
    rw [hlength.count_eq _ n hn, (hbody _).count_eq as _ (Nat.mod_lt _ (by decide)),
      length_append, Nat.mod_add_mod, add_assoc]
  read_write as rest h := by
    change (length.read front
      ((length.write as.length ++ (body as.length).write as) ++ rest)).bind _ = _
    rw [append_assoc, hlength.read_write _ _ h.1, Option.bind_some]
    exact (hbody _).read_write as rest ⟨rfl, h.2⟩
  write_read bytes as rest h := by
    obtain ⟨⟨size, mid⟩, hsize, hitems⟩ := Option.bind_eq_some_iff.mp h
    obtain ⟨hp, rfl⟩ := hlength.write_read _ _ _ hsize
    obtain ⟨⟨rfl, hall⟩, rfl⟩ := (hbody size).write_read _ _ _ hitems
    exact ⟨⟨hp, hall⟩, (append_assoc _ _ _).symm⟩
  natural h := (hlength.natural h).bind fun size => (hbody size).natural h

theorem readAll_flatMap {p : α → Prop} (hf : f.Canonical p) (hne : ∀ a, f.write a ≠ [])
    {R : σ → Bytes → Prop} (h : Simulates S front R) {empty : σ → Bool}
    (hempty : ∀ s bytes, R s bytes → (empty s = true ↔ bytes = [])) (has : ∀ a ∈ as, p a)
    (hs : R s (as.flatMap f.write)) (hrounds : as.length ≤ rounds) :
    readAll f S empty rounds s = some as := by
  induction as generalizing s rounds with
  | nil =>
    have hend : empty s = true := (hempty s _ hs).mpr rfl
    cases rounds <;> rw [readAll, if_pos hend]
  | cons a as ih =>
    obtain ⟨rounds, rfl⟩ : ∃ n, rounds = n + 1 :=
      ⟨rounds - 1, (Nat.sub_add_cancel (le_trans (Nat.succ_pos _) hrounds)).symm⟩
    have hmore : ¬empty s = true := by
      rw [hempty s _ hs, flatMap_cons]
      exact fun hnil => hne a (append_eq_nil_iff.mp hnil).1
    have hread := hf.read_write a (as.flatMap f.write) (has a mem_cons_self)
    rw [← flatMap_cons] at hread
    obtain ⟨s', hs', hrel⟩ := hf.natural h s _ hs a _ hread
    have hrest := ih (fun b hb => has b (mem_cons_of_mem _ hb)) hrel
      (Nat.le_of_succ_le_succ hrounds)
    rw [readAll, if_neg hmore, hs']
    change (readAll f S empty rounds s').bind _ = _
    rw [hrest]
    rfl

theorem Format.Canonical.preserves {f : Format α} {p : α → Prop} (hf : f.Canonical p) {S : Stream σ}
    {I : σ → Prop} (h : ∀ size s bytes s', I s → S.read size s = some (bytes, s') → I s')
    {s s' : σ} {a : α} (hs : I s) (hread : f.read S s = some (a, s')) : I s' := by
  have hsim : Simulates S S fun s t => s = t ∧ I t := by
    rintro size s _ ⟨rfl, hI⟩ bytes t hread
    exact ⟨t, hread, rfl, h size s bytes t hI hread⟩
  obtain ⟨t, -, rfl, hI⟩ := hf.natural hsim s s ⟨rfl, hs⟩ a s' hread
  exact hI

theorem readAll_endless {f : Format α} {p : α → Prop} (hf : f.Canonical p) {S : Stream σ}
    {I : σ → Prop} (h : ∀ size s bytes s', I s → S.read size s = some (bytes, s') → I s')
    {empty : σ → Bool} (hempty : ∀ s, I s → ¬empty s = true) (rounds : Nat) {s : σ} (hs : I s) :
    readAll f S empty rounds s = none := by
  induction rounds generalizing s with
  | zero => rw [readAll, if_neg (hempty s hs)]
  | succ rounds ih =>
    rw [readAll, if_neg (hempty s hs)]
    cases hread : f.read S s with
    | none => rfl
    | some read =>
      change (readAll f S empty rounds read.2).bind _ = none
      rw [ih (hf.preserves h hs hread)]
      rfl

def SelfDelimiting (write : α → Bytes) : Prop :=
  ∀ ⦃a b : α⦄ ⦃rest rest' : Bytes⦄, write a ++ rest = write b ++ rest' → a = b ∧ rest = rest'

section

variable {write : α → Bytes} {write' : β → Bytes}

theorem Format.Canonical.selfDelimiting {f : Format α} (h : f.Canonical fun _ => True) :
    SelfDelimiting f.write := by
  intro a b rest rest' heq
  have hread := h.read_write a rest trivial
  rw [heq, h.read_write b rest' trivial] at hread
  cases hread
  exact ⟨rfl, rfl⟩

theorem SelfDelimiting.injective (h : SelfDelimiting write) : Function.Injective write := by
  intro a b heq
  have happend : write a ++ [] = write b ++ [] := by rw [heq]
  exact (h happend).1

theorem SelfDelimiting.header (h : SelfDelimiting write') (header : α → β)
    (hlength : ∀ a b, header a = header b → (write a).length = (write b).length)
    (hinjective : Function.Injective write) :
    SelfDelimiting fun a => write' (header a) ++ write a := by
  intro a b rest rest' heq
  rw [append_assoc, append_assoc] at heq
  obtain ⟨hheader, hrest⟩ := h heq
  obtain ⟨hwrite, rfl⟩ := append_inj hrest (hlength a b hheader)
  exact ⟨hinjective hwrite, rfl⟩

end

end Utsuite.WireFormat
