import Mathlib
import Lox.Piece
import Lox.Proofs.Ascent
import Lox.Proofs.Settled

/-! Ids in a session.
All parses of a session take ids from one supply, also those that fail. As long as fewer names and `=`
are parsed than there are ids, no id is handed out twice, and the tables of accepted programs gather
without an entry being replaced (`parseAll_ids`). -/
namespace Lox

/-- Parse token lists one after another, with ids from one supply. -/
def parseAll (ids : IdSupply) :
    List (List Token) → List (Except (List SyntaxError) Program) × IdSupply
  | [] => ([], ids)
  | tokens :: inputs =>
    let (result, ids) := parse tokens ids
    let (results, ids) := parseAll ids inputs
    (result :: results, ids)

def parsedPrograms (ids : IdSupply) (inputs : List (List Token)) : List Program :=
  (parseAll ids inputs).1.filterMap Except.toOption

namespace Resolution

def accept (r : Resolution) (p : Program) : Resolution :=
  match resolve p with
  | .ok new => r.extend new
  | .error _ => r

def gathered (programs : List Program) : Resolution := programs.foldl accept ∅

theorem getElem?_accept {r : Resolution} {p : Program} {id : UseId} (hid : id ∉ p.uses) :
    (r.accept p)[id]? = r[id]? := by
  unfold accept
  split
  · next new hnew => rw [getElem?_extend, resolve_getElem?_eq_none hnew hid, Option.none_or]
  · rfl

/-- Programs that do not have a use leave its entry alone. -/
theorem getElem?_foldl_accept {id : UseId} : ∀ {programs : List Program} {r : Resolution},
    id ∉ programs.flatMap Program.uses → (programs.foldl accept r)[id]? = r[id]?
  | [], _, _ => rfl
  | p :: programs, r, hid => by
    rw [List.flatMap_cons, List.mem_append, not_or] at hid
    rw [List.foldl_cons, getElem?_foldl_accept hid.2, getElem?_accept hid.1]

theorem getElem?_gathered {programs : List Program} {id : UseId}
    (hid : id ∉ programs.flatMap Program.uses) : (gathered programs)[id]? = none := by
  rw [gathered, getElem?_foldl_accept hid]
  simp

/-- The entries of a program are new when they are added, and stay as they are. -/
theorem gathered_keeps {before after : List Program} {p : Program} {r : Resolution}
    (hids : ((before ++ p :: after).flatMap Program.uses).Nodup) (hr : resolve p = .ok r) :
    (∀ id : UseId, r[id]? ≠ none → (gathered before)[id]? = none) ∧
      ∀ id ∈ p.uses, ∀ later, later <+: after →
        (gathered (before ++ p :: later))[id]? = r[id]? := by
  rw [List.flatMap_append, List.flatMap_cons] at hids
  obtain ⟨-, hrest, hbefore⟩ := List.nodup_append.1 hids
  obtain ⟨-, -, hafter⟩ := List.nodup_append.1 hrest
  have hnew : ∀ id ∈ p.uses, (gathered before)[id]? = none := fun id hid =>
    getElem?_gathered fun hid' => hbefore id hid' id (List.mem_append_left _ hid) rfl
  refine ⟨fun id hid => hnew id ?_, fun id hid later hlater => ?_⟩
  · exact Classical.byContradiction fun hid' => hid (resolve_getElem?_eq_none hr hid')
  · have hid' : id ∉ later.flatMap Program.uses := fun hid' => by
      obtain ⟨q, hq, hid'⟩ := List.mem_flatMap.1 hid'
      exact hafter id hid id (List.mem_flatMap.2 ⟨q, hlater.subset hq, hid'⟩) rfl
    have haccept : (gathered before).accept p = (gathered before).extend r := by
      rw [accept, hr]
    rw [gathered, List.foldl_append, List.foldl_cons, getElem?_foldl_accept hid']
    change ((gathered before).accept p)[id]? = _
    rw [haccept, getElem?_extend, hnew id hid, Option.or_none]

end Resolution

variable {ids : IdSupply} {inputs : List (List Token)}

theorem handed_parseAll : ∀ (inputs : List (List Token)) (ids : IdSupply),
    (parseAll ids inputs).2.handed ≤ ids.handed + demand inputs.flatten ∧
      ids.handed ≤ (parseAll ids inputs).2.handed
  | [], _ => ⟨Nat.le_add_right _ _, Nat.le_refl _⟩
  | tokens :: inputs, ids => by
    obtain ⟨hle, hge, -⟩ := numbers_of_parse tokens ids
    obtain ⟨hle', hge'⟩ := handed_parseAll inputs (parse tokens ids).2
    rw [List.flatten_cons, demand_append, parseAll]
    dsimp only
    omega

theorem parsedPrograms_cons (ids : IdSupply) (tokens : List Token) (inputs : List (List Token)) :
    parsedPrograms ids (tokens :: inputs) = (parse tokens ids).1.toOption.toList ++
      parsedPrograms (parse tokens ids).2 inputs := by
  rw [parsedPrograms, parseAll]
  dsimp only
  rw [List.filterMap_cons]
  cases (parse tokens ids).1 <;> rfl

/-- As long as there are ids, all ids in the programs are told apart, and none has been handed out
before. -/
theorem nodup_parsedPrograms : ∀ {inputs : List (List Token)} {ids : IdSupply},
    (parseAll ids inputs).2.handed ≤ UInt32.size →
      ((parsedPrograms ids inputs).flatMap Program.uses).Nodup ∧
        ∀ id ∈ (parsedPrograms ids inputs).flatMap Program.uses, ids.handed ≤ id.toNat
  | [], _, _ => ⟨List.nodup_nil, nofun⟩
  | tokens :: inputs, ids, hb => by
    obtain ⟨-, hge, hfirst⟩ := numbers_of_parse tokens ids
    have hrest : (parseAll (parse tokens ids).2 inputs).2.handed ≤ UInt32.size := hb
    have hroom := Nat.le_trans (handed_parseAll inputs (parse tokens ids).2).2 hrest
    obtain ⟨hnodup, hrange⟩ := nodup_parsedPrograms hrest
    rw [parsedPrograms_cons]
    cases hp : (parse tokens ids).1 with
    | error errors => exact ⟨hnodup, fun id hid => Nat.le_trans hge (hrange id hid)⟩
    | ok p =>
      obtain ⟨hp, hprange⟩ := hfirst hroom p hp
      change ((p :: parsedPrograms _ inputs).flatMap Program.uses).Nodup ∧ _
      change _ ∧ ∀ id ∈ (p :: parsedPrograms _ inputs).flatMap Program.uses, _
      rw [List.flatMap_cons]
      refine ⟨List.nodup_append.2 ⟨hp, hnodup, fun id hid id' hid' heq => ?_⟩, fun id hid => ?_⟩
      · subst heq
        have := (hprange id hid).2
        have := hrange id hid'
        omega
      · rcases List.mem_append.1 hid with hid | hid
        · exact (hprange id hid).1
        · exact Nat.le_trans hge (hrange id hid)

theorem ascending_parsedPrograms : ∀ {inputs : List (List Token)} {ids : IdSupply},
    ids.handed + demand inputs.flatten < UInt32.size →
      ∀ p ∈ parsedPrograms ids inputs, Ascending p.assignments
  | [], _, _ => nofun
  | tokens :: inputs, ids, hb => by
    rw [List.flatten_cons, demand_append] at hb
    obtain ⟨hle, -⟩ := numbers_of_parse tokens ids
    have hrest : (parse tokens ids).2.handed + demand inputs.flatten < UInt32.size := by omega
    have hascending := ascending_parsedPrograms hrest
    rw [parsedPrograms_cons]
    cases hp : (parse tokens ids).1 with
    | error errors => exact hascending
    | ok p =>
      have hroom : ids.handed + demand tokens < UInt32.size := by omega
      exact List.forall_mem_cons.2 ⟨ascending_of_parse hroom hp, hascending⟩

/-- Ids are unique in a session. Programs that are parsed one after another, between inputs that cannot
be parsed, have different ids for all their uses, and an assignment has a greater id than the uses in
its right side. Each parse takes at most as many ids as it is given names and `=`, and the supply
does not run out. So the resolution of an accepted program replaces no entry of the table of the
programs before it, and the table keeps what the resolution says about the uses of the program,
whatever programs follow. -/
theorem parseAll_ids (hb : ids.handed + demand inputs.flatten < UInt32.size) :
    ((parsedPrograms ids inputs).flatMap Program.uses).Nodup ∧
    (∀ p ∈ parsedPrograms ids inputs, ∀ a ∈ p.assignments, ∀ id ∈ a.2.uses, id < a.1) ∧
    (∀ before tokens after, inputs = before ++ tokens :: after →
      let supply := (parseAll ids before).2
      supply.next.toNat ≤ (parse tokens supply).2.next.toNat ∧
        (parse tokens supply).2.next.toNat - supply.next.toNat ≤ demand tokens ∧
        supply.next.toNat + demand tokens < UInt32.size) ∧
    ∀ before p after r, parsedPrograms ids inputs = before ++ p :: after → resolve p = .ok r →
      (∀ id : UseId, r[id]? ≠ none → (Resolution.gathered before)[id]? = none) ∧
      ∀ id ∈ p.uses, ∀ later, later <+: after →
        (Resolution.gathered (before ++ p :: later))[id]? = r[id]? := by
  have hend := Nat.lt_of_le_of_lt (handed_parseAll inputs ids).1 hb
  have hnodup := (nodup_parsedPrograms (Nat.le_of_lt hend)).1
  refine ⟨hnodup, ascending_parsedPrograms hb, fun before tokens after h => ?_,
    fun before p after r h hr => ?_⟩
  · subst h
    rw [List.flatten_append, List.flatten_cons, demand_append, demand_append] at hb
    obtain ⟨hle, -⟩ := handed_parseAll before ids
    obtain ⟨hle', hge, -⟩ := numbers_of_parse tokens (parseAll ids before).2
    dsimp only
    rw [IdSupply.toNat_next (s := (parseAll ids before).2) (by omega),
      IdSupply.toNat_next (s := (parse tokens (parseAll ids before).2).2) (by omega)]
    omega
  · rw [h] at hnodup
    exact Resolution.gathered_keeps hnodup hr

/-- A function with a loop that assigns, an input that fails after it has taken ids, and a program that
calls the function and replaces it. -/
def replacedInputs : List (List Token) :=
  ["fun f(n) \x7b for (var i = n; i; i = nil) n = i = n; \x7d", "f = n(", "f(f = f);"].map
    fun source => (scan source).tokens

set_option maxRecDepth 8000 in
theorem parseAll_ids_replaced :
    IdSupply.initial.handed + demand replacedInputs.flatten < UInt32.size ∧
      (parsedPrograms .initial replacedInputs).map Program.uses =
        [[0, 1, 6, 7, 8, 3], [11, 13, 14]] ∧
      ((parsedPrograms .initial replacedInputs).flatMap Program.uses).Nodup := by
  have hb : IdSupply.initial.handed + demand replacedInputs.flatten < UInt32.size := by cbv
  exact ⟨hb, by cbv, (parseAll_ids hb).1⟩

end Lox
