import Mathlib.Data.List.Dedup
import Mathlib.Data.List.Induction
import Mathlib.Data.Option.Basic
import Mathlib.Logic.Function.Basic
import Lox.Interner

/-! Interning.
Symbols of one interner are the same if they stand for the same text, and symbols of different interners
never are. So it makes no difference whether a map has symbols of one interner or their texts as its keys
(`same_iff_requested`). -/
namespace Lox
namespace Interner

theorem same_iff {a b : Symbol} : a.same b ↔ a.owner = b.owner ∧ a.number = b.number := by
  simp [Symbol.same]

theorem same_left {a b k : Symbol} (h : a.same b) : a.same k = b.same k := by
  rw [Symbol.same, Symbol.same, (same_iff.1 h).1, (same_iff.1 h).2]

theorem same_right {a b k : Symbol} (h : a.same b) : k.same a = k.same b := by
  rw [Symbol.same, Symbol.same, (same_iff.1 h).1, (same_iff.1 h).2]

structure Serves (i : Interner) (text : String) (s : Symbol) (i' : Interner) : Prop where
  owner : i'.owner = i.owner
  symbol_owner : s.owner = i.owner
  symbol_text : s.text = text
  stored : i'.texts[s.number]? = some text
  kept : ∀ (n : Nat) (t : String), i.texts[n]? = some t → i'.texts[n]? = some t
  nodup : i.texts.Nodup → i'.texts.Nodup
  mem_iff : ∀ t, t ∈ i'.texts ↔ t ∈ i.texts ∨ t = text

theorem serves_symbol (i : Interner) (text : String) :
    i.Serves text (i.symbol text).1 (i.symbol text).2 := by
  unfold symbol
  cases h : i.texts.findIdx? (· == text) with
  | some n =>
    obtain ⟨hn, htext, -⟩ := List.findIdx?_eq_some_iff_getElem.1 h
    have hstored : i.texts[n]? = some text := by rw [List.getElem?_eq_getElem hn, eq_of_beq htext]
    refine ⟨rfl, rfl, rfl, hstored, fun _ _ => id, id, fun t => ⟨.inl, ?_⟩⟩
    rintro (ht | rfl)
    · exact ht
    · exact List.mem_of_getElem? hstored
  | none =>
    have hnew : text ∉ i.texts := by
      intro hmem
      have := List.findIdx?_eq_none_iff.1 h text hmem
      simp at this
    refine ⟨rfl, rfl, rfl, List.getElem?_concat_length, fun n t hn => ?_, fun hnodup => ?_, ?_⟩
    · rw [List.getElem?_append_left (List.getElem?_eq_some_iff.1 hn).1, hn]
    · exact List.concat_eq_append ▸ hnodup.concat hnew
    · simp

structure Request where
  owner : Nat
  text : String
  deriving DecidableEq

def fresh (n : Nat) : Interner := empty n

def serve (is : Nat → Interner) (r : Request) : Symbol × (Nat → Interner) :=
  let (symbol, i) := (is r.owner).symbol r.text
  (symbol, Function.update is r.owner i)

def served (is : Nat → Interner) : List Request → List Symbol
  | [] => []
  | r :: rs => (serve is r).1 :: served (serve is r).2 rs

def after (is : Nat → Interner) (rs : List Request) : Nat → Interner :=
  rs.foldl (fun is r => (serve is r).2) is

theorem served_concat (is : Nat → Interner) (rs : List Request) (r : Request) :
    served is (rs ++ [r]) = served is rs ++ [(serve (after is rs) r).1] := by
  induction rs generalizing is with
  | nil => rfl
  | cons first rs ih =>
    rw [List.cons_append, served, ih]
    rfl

theorem after_concat (is : Nat → Interner) (rs : List Request) (r : Request) :
    after is (rs ++ [r]) = (serve (after is rs) r).2 := by
  rw [after, List.foldl_append]
  rfl

/-- What one of many interners keeps of the requests that have been served. -/
structure Keeps (n : Nat) (rs : List Request) (symbols : List Symbol) (i : Interner) : Prop where
  owner : i.owner = n
  nodup : i.texts.Nodup
  mem_iff : ∀ t, t ∈ i.texts ↔ ⟨n, t⟩ ∈ rs
  stored : ∀ s ∈ symbols, s.owner = n → i.texts[s.number]? = some s.text

structure Knows (rs : List Request) (symbols : List Symbol) (is : Nat → Interner) : Prop where
  keeps : ∀ n, Keeps n rs symbols (is n)
  requests : symbols.map (fun s => ⟨s.owner, s.text⟩) = rs

theorem knows_nil : Knows [] [] fresh where
  keeps _ := ⟨rfl, List.nodup_nil, fun _ => iff_of_false List.not_mem_nil List.not_mem_nil, nofun⟩
  requests := rfl

section

variable {rs : List Request} {symbols : List Symbol} {r : Request} {s : Symbol}

/-- The interner that a text is requested from keeps its symbols and the new one. -/
theorem Keeps.serve {i i' : Interner} (h : Keeps r.owner rs symbols i) (hserves : i.Serves r.text s i') :
    Keeps r.owner (rs ++ [r]) (symbols ++ [s]) i' where
  owner := hserves.owner.trans h.owner
  nodup := hserves.nodup h.nodup
  mem_iff t := by
    rw [hserves.mem_iff, h.mem_iff, List.mem_append, List.mem_singleton]
    exact or_congr_right ⟨fun ht => by rw [ht], fun ht => congrArg Request.text ht⟩
  stored s' hs' howner := by
    rcases List.mem_append.1 hs' with hs' | hs'
    · exact hserves.kept _ _ (h.stored s' hs' howner)
    · obtain rfl := List.mem_singleton.1 hs'
      rw [hserves.symbol_text]
      exact hserves.stored

/-- The others keep what they have. -/
theorem Keeps.other {n : Nat} {i : Interner} (h : Keeps n rs symbols i) (hn : n ≠ r.owner)
    (hs : s.owner = r.owner) : Keeps n (rs ++ [r]) (symbols ++ [s]) i where
  owner := h.owner
  nodup := h.nodup
  mem_iff t := by
    rw [h.mem_iff, List.mem_append, List.mem_singleton]
    exact ⟨.inl, fun hmem => hmem.resolve_right fun heq => hn (congrArg Request.owner heq)⟩
  stored s' hs' howner := by
    rcases List.mem_append.1 hs' with hs' | hs'
    · exact h.stored s' hs' howner
    · obtain rfl := List.mem_singleton.1 hs'
      exact absurd (howner.symm.trans hs) hn

theorem Knows.concat {is : Nat → Interner} {i : Interner} (h : Knows rs symbols is)
    (hserves : (is r.owner).Serves r.text s i) :
    Knows (rs ++ [r]) (symbols ++ [s]) (Function.update is r.owner i) := by
  have howner : s.owner = r.owner := hserves.symbol_owner.trans (h.keeps r.owner).owner
  refine ⟨fun n => ?_, ?_⟩
  · rcases eq_or_ne n r.owner with rfl | hn
    · rw [Function.update_self]
      exact (h.keeps _).serve hserves
    · rw [Function.update_of_ne hn]
      exact (h.keeps n).other hn howner
  · rw [List.map_append, h.requests, List.map_singleton, howner, hserves.symbol_text]

end

theorem knows_served (rs : List Request) : Knows rs (served fresh rs) (after fresh rs) := by
  induction rs using List.reverseRecOn with
  | nil => exact knows_nil
  | append_singleton rs r ih =>
    rw [served_concat, after_concat]
    exact ih.concat (serves_symbol _ r.text)

namespace Knows

variable {rs : List Request} {symbols : List Symbol} {is : Nat → Interner} {a b : Symbol} {i j : Nat}

theorem stored (h : Knows rs symbols is) (ha : a ∈ symbols) :
    (is a.owner).texts[a.number]? = some a.text :=
  (h.keeps a.owner).stored a ha rfl

theorem same_iff (h : Knows rs symbols is) (ha : a ∈ symbols) (hb : b ∈ symbols) :
    a.same b ↔ a.owner = b.owner ∧ a.text = b.text := by
  rw [Interner.same_iff]
  refine and_congr_right fun howner => ?_
  have hstored := h.stored ha
  have hstored' := h.stored hb
  rw [← howner] at hstored'
  constructor
  · intro hnumber
    rw [hnumber, hstored'] at hstored
    exact (Option.some.inj hstored).symm
  · intro htext
    obtain ⟨hlt, -⟩ := List.getElem?_eq_some_iff.1 hstored
    exact (List.getElem?_inj hlt (h.keeps _).nodup).1 (by rw [hstored, hstored', htext])

theorem request_eq (h : Knows rs symbols is) (ha : symbols[i]? = some a) :
    rs[i]? = some ⟨a.owner, a.text⟩ := by
  rw [← h.requests, List.getElem?_map, ha]
  rfl

theorem same_iff_request_eq (h : Knows rs symbols is) (ha : symbols[i]? = some a)
    (hb : symbols[j]? = some b) : a.same b ↔ rs[i]? = rs[j]? := by
  rw [h.same_iff (List.mem_of_getElem? ha) (List.mem_of_getElem? hb), h.request_eq ha, h.request_eq hb,
    Option.some_inj, Request.mk.injEq]

theorem size_eq (h : Knows rs symbols is) (n : Nat) :
    (is n).size = ((rs.filter (·.owner = n)).map Request.text).dedup.length := by
  refine ((List.perm_ext_iff_of_nodup (h.keeps n).nodup (List.nodup_dedup _)).2 fun t => ?_).length_eq
  rw [(h.keeps n).mem_iff, List.mem_dedup, List.mem_map]
  constructor
  · intro hmem
    exact ⟨⟨n, t⟩, by simpa using hmem, rfl⟩
  · rintro ⟨⟨owner, text⟩, hmem, rfl⟩
    simp only [List.mem_filter, decide_eq_true_eq] at hmem
    exact hmem.2 ▸ hmem.1

end Knows

/-! ### Addresses -/

/-- The texts that are allocated, each with its position as its address, and the addresses that interners
hold, by the hash of the text there. -/
structure Memory where
  texts : List String
  held : Nat → UInt64 → List Nat

namespace Memory

variable (hash : String → UInt64)

def empty : Memory := ⟨[], fun _ _ => []⟩

/-- The address of a text that its interner holds, looked up by content. -/
def find? (m : Memory) (r : Request) : Option Nat :=
  (m.held r.owner (hash r.text)).find? fun a => m.texts[a]? = some r.text

def allocate (m : Memory) (r : Request) : Memory where
  texts := m.texts ++ [r.text]
  held := Function.update m.held r.owner <| Function.update (m.held r.owner) (hash r.text) <|
    m.held r.owner (hash r.text) ++ [m.texts.length]

/-- The address of a text, a new one only if the interner does not hold the text. -/
def request (m : Memory) (r : Request) : Nat × Memory :=
  match m.find? hash r with
  | some a => (a, m)
  | none => (m.texts.length, m.allocate hash r)

def addresses (m : Memory) : List Request → List Nat
  | [] => []
  | r :: rs => (m.request hash r).1 :: addresses (m.request hash r).2 rs

/-- Each address belongs to one request, the first of its kind. -/
structure Holds (m : Memory) (first : List Request) : Prop where
  nodup : first.Nodup
  texts : m.texts = first.map Request.text
  held : ∀ n k a, a ∈ m.held n k ↔ ∃ r, first[a]? = some r ∧ r.owner = n ∧ hash r.text = k

theorem holds_empty : empty.Holds hash [] := ⟨List.nodup_nil, rfl, by simp [empty]⟩

theorem mem_held_allocate (m : Memory) (r : Request) (n : Nat) (k : UInt64) (a : Nat) :
    a ∈ (m.allocate hash r).held n k ↔
      a ∈ m.held n k ∨ a = m.texts.length ∧ r.owner = n ∧ hash r.text = k := by
  unfold allocate
  rcases eq_or_ne n r.owner with rfl | hn
  · rcases eq_or_ne k (hash r.text) with rfl | hk
    · simp
    · simp [Function.update_of_ne hk, hk.symm]
  · simp [Function.update_of_ne hn, hn.symm]

variable {hash} {m : Memory} {first : List Request} {r : Request} {a : Nat}

theorem Holds.of_find?_eq_some (h : m.Holds hash first) (hfind : m.find? hash r = some a) :
    first[a]? = some r := by
  obtain ⟨r', hr', howner, -⟩ := (h.held _ _ _).1 (List.mem_of_find?_eq_some hfind)
  have htext : m.texts[a]? = some r.text := by simpa using List.find?_some hfind
  rw [h.texts, List.getElem?_map, hr'] at htext
  rw [hr']
  cases r
  cases r'
  cases howner
  cases htext
  rfl

theorem Holds.of_find?_eq_none (h : m.Holds hash first) (hfind : m.find? hash r = none) :
    r ∉ first := by
  intro hmem
  obtain ⟨a, ha⟩ := List.getElem?_of_mem hmem
  have hother := List.find?_eq_none.1 hfind a ((h.held _ _ _).2 ⟨r, ha, rfl, rfl⟩)
  simp [h.texts, ha] at hother

theorem Holds.allocate (h : m.Holds hash first) (hnew : r ∉ first) :
    (m.allocate hash r).Holds hash (first ++ [r]) := by
  have hlength : m.texts.length = first.length := by rw [h.texts, List.length_map]
  refine ⟨?_, ?_, fun n k a => ?_⟩
  · exact List.concat_eq_append ▸ h.nodup.concat hnew
  · rw [List.map_append, ← h.texts]
    rfl
  · rw [mem_held_allocate, h.held, hlength]
    rcases Nat.lt_trichotomy a first.length with hlt | rfl | hgt
    · rw [List.getElem?_append_left hlt]
      exact or_iff_left fun hlast => Nat.ne_of_lt hlt hlast.1
    · simp
    · have hle : first.length ≤ a := Nat.le_of_lt hgt
      simp [Nat.ne_of_gt hgt, List.getElem?_append_right hle, hle, Nat.sub_ne_zero_of_lt hgt]

theorem Holds.request (h : m.Holds hash first) (r : Request) :
    ∃ later, (m.request hash r).2.Holds hash (first ++ later) ∧
      (first ++ later)[(m.request hash r).1]? = some r := by
  unfold Memory.request
  cases hfind : m.find? hash r with
  | some a => exact ⟨[], by simpa using h, by simpa using h.of_find?_eq_some hfind⟩
  | none =>
    refine ⟨[r], h.allocate (h.of_find?_eq_none hfind), ?_⟩
    have hlength : m.texts.length = first.length := by rw [h.texts, List.length_map]
    simp [hlength]

theorem Holds.addresses (h : m.Holds hash first) (rs : List Request) :
    ∃ later, rs ⊆ first ++ later ∧ m.addresses hash rs = rs.map (first ++ later).idxOf := by
  induction rs generalizing m first with
  | nil => exact ⟨[], List.nil_subset _, rfl⟩
  | cons r rs ih =>
    obtain ⟨added, hadded, hr⟩ := h.request r
    obtain ⟨later, hsubset, haddresses⟩ := ih hadded
    obtain ⟨hlt, hr⟩ := List.getElem?_eq_some_iff.1 hr
    have hmem : r ∈ first ++ added := hr ▸ List.getElem_mem hlt
    -- What was first stays first, since later requests are only added behind.
    have hfirst : (first ++ added ++ later).idxOf r = (m.request hash r).1 := by
      rw [List.idxOf_append_of_mem hmem, ← hadded.nodup.idxOf_getElem _ hlt, hr]
    rw [List.append_assoc] at hsubset haddresses hfirst
    refine ⟨added ++ later, List.cons_subset.2 ⟨?_, hsubset⟩, congrArg₂ List.cons hfirst.symm haddresses⟩
    rw [← List.append_assoc]
    exact List.mem_append_left _ hmem

theorem addresses_eq_iff (hash : String → UInt64) (rs : List Request) (i j : Nat) :
    (empty.addresses hash rs)[i]? = (empty.addresses hash rs)[j]? ↔ rs[i]? = rs[j]? := by
  obtain ⟨all, hsubset, haddresses⟩ := (holds_empty hash).addresses rs
  rw [haddresses, List.getElem?_map, List.getElem?_map]
  refine ⟨fun heq => ?_, congrArg _⟩
  cases hr : rs[i]? <;> cases hr' : rs[j]? <;> simp only [hr, hr'] at heq
  case none.none => rfl
  case some.some r r' =>
    have hmem := hsubset (List.mem_of_getElem? hr)
    exact congrArg some ((List.idxOf_inj hmem).1 (Option.some.inj heq))
  all_goals cases heq

end Memory

/-! ### Maps with symbols as their keys -/

inductive Use (α : Type)
  | insert (key : Symbol) (v : α)
  | find (key : Symbol)

variable {α : Type}

def Use.key : Use α → Symbol
  | insert key _ | find key => key

abbrev Bucket (α : Type) := List (Symbol × α)

namespace Bucket

def find? (entries : Bucket α) (key : Symbol) : Option α :=
  (List.find? (·.1.same key) entries).map Prod.snd

/-- Enter a value, in place of an earlier one of the same symbol. -/
def insert : Bucket α → Symbol → α → Bucket α
  | [], key, v => [(key, v)]
  | (k, u) :: entries, key, v =>
    if k.same key then (k, v) :: entries else (k, u) :: insert entries key v

end Bucket

/-- A hash table, with its entries by the hash of the text of their key. -/
abbrev Table (α : Type) := UInt64 → Bucket α

namespace Table

variable (hash : String → UInt64)

def find? (table : Table α) (key : Symbol) : Option α := (table (hash key.text)).find? key

def insert (table : Table α) (key : Symbol) (v : α) : Table α :=
  Function.update table (hash key.text) ((table (hash key.text)).insert key v)

/-- The answers of a table. That to an insertion is the value that was there before. -/
def answers (table : Table α) : List (Use α) → List (Option α)
  | [] => []
  | .insert key v :: uses => table.find? hash key :: answers (table.insert hash key v) uses
  | .find key :: uses => table.find? hash key :: answers table uses

end Table

def textAnswers (values : String → Option α) : List (Use α) → List (Option α)
  | [] => []
  | .insert key v :: uses =>
    values key.text :: textAnswers (Function.update values key.text (some v)) uses
  | .find key :: uses => values key.text :: textAnswers values uses

namespace Bucket

theorem find?_cons (k : Symbol) (u : α) (entries : Bucket α) (key : Symbol) :
    find? ((k, u) :: entries) key = if k.same key then some u else find? entries key := by
  unfold find?
  cases h : k.same key <;> simp [h]

theorem find?_insert (entries : Bucket α) (key k : Symbol) (v : α) :
    (entries.insert key v).find? k = if key.same k then some v else entries.find? k := by
  induction entries with
  | nil => exact find?_cons key v [] k
  | cons entry entries ih =>
    obtain ⟨k', u⟩ := entry
    unfold insert
    split
    · next hsame =>
      rw [find?_cons, find?_cons, same_left hsame]
      split <;> rfl
    · next hother =>
      rw [find?_cons, find?_cons, ih]
      split
      · next hk' =>
        rw [if_neg]
        exact fun hk => hother (same_right hk ▸ hk')
      · rfl

end Bucket

theorem Table.find?_insert (hash : String → UInt64) (table : Table α) {key k : Symbol} (v : α)
    (h : key.same k → key.text = k.text) :
    (table.insert hash key v).find? hash k = if key.same k then some v else table.find? hash k := by
  unfold Table.find? Table.insert
  -- In another bucket the key cannot be the same: it would have the same text, so the same hash.
  rcases eq_or_ne (hash k.text) (hash key.text) with heq | hne
  · rw [heq, Function.update_self, Bucket.find?_insert]
  · have hother : ¬ key.same k := fun hsame => hne (by rw [h hsame])
    rw [Function.update_of_ne hne, if_neg hother]

/-- For keys that are the same if their texts are, a table answers as a map from texts does. -/
theorem answers_eq_textAnswers (hash : String → UInt64) {keys : List Symbol}
    (hkeys : ∀ a ∈ keys, ∀ b ∈ keys, a.same b ↔ a.text = b.text) {uses : List (Use α)}
    (huses : ∀ use ∈ uses, use.key ∈ keys) {table : Table α} {values : String → Option α}
    (h : ∀ k ∈ keys, table.find? hash k = values k.text) :
    table.answers hash uses = textAnswers values uses := by
  induction uses generalizing table values with
  | nil => rfl
  | cons use uses ih =>
    obtain ⟨hkey, hlater⟩ := List.forall_mem_cons.1 huses
    cases use with
    | find key => exact congrArg₂ List.cons (h key hkey) (ih hlater h)
    | insert key v =>
      refine congrArg₂ List.cons (h key hkey) (ih hlater fun k hk => ?_)
      have hsame := hkeys key hkey k hk
      rw [table.find?_insert hash v hsame.1, h k hk, Function.update_apply]
      exact if_congr (hsame.trans eq_comm) rfl rfl

/-- Symbols are the same exactly if they are requested from one interner with one text, which is when memory
answers with one address. Interners keep the texts of their symbols and count the texts that are requested.
A table with symbols of one interner as its keys answers as a map from their texts does. -/
theorem same_iff_requested (hash : String → UInt64) (rs : List Request) :
    (served fresh rs).map (fun s => ⟨s.owner, s.text⟩) = rs ∧
    (∀ s ∈ served fresh rs, (after fresh rs s.owner).texts[s.number]? = some s.text) ∧
    (∀ (i j : Nat) (a b : Symbol), (served fresh rs)[i]? = some a → (served fresh rs)[j]? = some b →
      (a.same b ↔ rs[i]? = rs[j]?) ∧
      (a.same b ↔ (Memory.empty.addresses hash rs)[i]? = (Memory.empty.addresses hash rs)[j]?)) ∧
    (∀ n, (after fresh rs n).size = ((rs.filter (·.owner = n)).map Request.text).dedup.length) ∧
    ∀ (n : Nat) (α : Type) (uses : List (Use α)),
      (∀ use ∈ uses, use.key ∈ served fresh rs ∧ use.key.owner = n) →
      Table.answers hash (fun _ => []) uses = textAnswers (fun _ => none) uses := by
  have h := knows_served rs
  refine ⟨h.requests, fun s => h.stored, fun i j a b ha hb => ?_, h.size_eq, fun n α uses huses => ?_⟩
  · have hsame := h.same_iff_request_eq ha hb
    exact ⟨hsame, hsame.trans (Memory.addresses_eq_iff hash rs i j).symm⟩
  · have hkeys : ∀ use ∈ uses, use.key ∈ (served fresh rs).filter (·.owner = n) := by
      intro use hmem
      simpa using huses use hmem
    refine answers_eq_textAnswers hash (fun a ha b hb => ?_) hkeys fun _ _ => rfl
    simp only [List.mem_filter, decide_eq_true_eq] at ha hb
    rw [h.same_iff ha.1 hb.1, ha.2, hb.2]
    exact and_iff_right rfl

/-- Requests to two interners that share a text. -/
def shared : List Request := [⟨0, "and"⟩, ⟨1, "and"⟩, ⟨0, "foo"⟩, ⟨0, "and"⟩]

/-- Two interners have symbols of their own for one text, and a table in which all texts have one hash still
tells the symbols of an interner apart. -/
theorem same_iff_requested_shared :
    (Memory.empty.addresses (fun _ => 0) shared)[0]? = (Memory.empty.addresses (fun _ => 0) shared)[3]? ∧
    (Memory.empty.addresses (fun _ => 0) shared)[0]? ≠ (Memory.empty.addresses (fun _ => 0) shared)[1]? ∧
    (after fresh shared 0).size = 2 ∧
    Table.answers (fun _ => 0) (fun _ => [])
      [.insert ⟨0, 0, "and"⟩ true, .find ⟨0, 1, "foo"⟩, .find ⟨0, 0, "and"⟩] = [none, none, some true] := by
  obtain ⟨-, -, hsame, hsize, htable⟩ := same_iff_requested (fun _ => 0) shared
  have hfirst : (served fresh shared)[0]? = some ⟨0, 0, "and"⟩ := rfl
  have hother : (served fresh shared)[1]? = some ⟨1, 0, "and"⟩ := rfl
  have hagain : (served fresh shared)[3]? = some ⟨0, 0, "and"⟩ := rfl
  refine ⟨(hsame 0 3 _ _ hfirst hagain).2.1 rfl, fun heq => ?_, (hsize 0).trans (by decide), ?_⟩
  · have hsame := (hsame 0 1 _ _ hfirst hother).2.2 heq
    exact absurd hsame (by decide)
  · refine (htable 0 Bool _ ?_).trans (by decide)
    have hfoo : ⟨0, 1, "foo"⟩ ∈ served fresh shared := List.mem_of_getElem? (i := 2) rfl
    have hand := List.mem_of_getElem? hfirst
    simp [Use.key, hand, hfoo]

end Interner
end Lox
