import ApiGraph.Proofs.Reachability.ArrayIndex
import ApiGraph.Proofs.Reachability.Insertion

namespace ApiGraph.Reachability

open Store

mutual

-- The schemas that are met on the way, and whether one is a response body itself.
inductive Entered (s : Store) (document : NodeId) : (isBody : Bool) → Value → Prop
  | response {seed : Seed} (h : seed ∈ seeds s document) : Entered s document true seed.schema
  | part {isBody : Bool} {v w : Value} {id : NodeId} {m : Entries}
      (h : Entered s document isBody v) (hv : s.asMapping? v = some (id, m))
      (hw : w ∈ parts s m) : Entered s document false w
  | component {name : String} {v : Value} (h : Derived s document (.str name))
      (hv : (registryOf s document).field? name = some v) : Entered s document false v

-- The name of a mapping that is entered, or a component that an array there is a copy of.
inductive Derived (s : Store) (document : NodeId) : Key → Prop
  | named {isBody : Bool} {v : Value} {id : NodeId} {m : Entries} {name : String}
      (h : Entered s document isBody v) (hv : s.asMapping? v = some (id, m))
      (hn : referenceName? m = some name) : Derived s document (.str name)
  | copy {isBody : Bool} {v : Value} {id : NodeId} {m : Entries} {k : Key}
      (h : Entered s document isBody v) (hv : s.asMapping? v = some (id, m))
      (hn : referenceName? m = none) (ha : isArray s m = true)
      (hk : CopyOf s (registryOf s document) isBody id m k) : Derived s document k

end

variable {s : Store} {document : NodeId} {settings : ReachabilitySettings} {k : Key}

theorem mem_parts_of_ownParts {c : Scope} {id : NodeId} {m : Entries} {w : Value}
    (h : w ∈ ownParts c id m) : w ∈ parts c.store m := by
  unfold ownParts at h
  split at h
  next =>
    unfold coreParts at h
    split at h
    · exact mem_parts.mpr (.inl h)
    · exact h
  next =>
    dsimp only at h
    split at h
    · exact h
    · cases h

-- Of an array component the walk meets the items, of any other the body.
theorem Derived.entered_of_due {name : String} {w : Value} (h : Derived s document (.str name))
    (hw : w ∈ dueOf s (registryOf s document) (.str name)) : Entered s document false w := by
  unfold dueOf at hw
  split at hw
  next => cases hw
  next id m hm =>
    obtain ⟨v, hfield, hv⟩ := Option.bind_eq_some_iff.mp hm
    have hbody : Entered s document false v := .component h hfield
    split at hw
    · exact .part hbody hv (mem_parts.mpr (.inl hw))
    · obtain ⟨rfl, -⟩ := asMapping?_eq_some.mp hv
      exact List.mem_singleton.mp hw ▸ hbody

-- What a schema leads to is derived as soon as the schema is met.
theorem derived_of_leads {isBody : Bool} {v : Value}
    (h : Leads (scopeOf s settings document) isBody v k) (hv : Entered s document isBody v) :
    Derived s document k := by
  induction h with
  | named hm hn => exact .named hv hm hn
  | @matched isBody v id m k hm hn ha hk =>
      exact .copy hv hm hn ha (copyOf_of_find? hk)
  | @body isBody v w id m name k hm hn hw _ ih =>
      have hname : Derived s document (.str name) := .named hv hm hn
      exact ih (hname.entered_of_due hw)
  | @part isBody v w id m k hm hw _ ih =>
      have hpart := mem_parts_of_ownParts (c := scopeOf s settings document) hw
      exact ih (.part hv hm hpart)

theorem derived_of_mem_collect (h : k ∈ (collect s settings document).names) :
    Derived s document k := by
  obtain ⟨seed, hseed, hleads⟩ := leads_of_mem_collect h
  exact derived_of_leads hleads (.response hseed)

-- What leads to a name does not depend on the bounds.
theorem Leads.of_settings {isBody : Bool} {v : Value} (other : ReachabilitySettings)
    (h : Leads (scopeOf s settings document) isBody v k) :
    Leads (scopeOf s other document) isBody v k := by
  induction h with
  | named hm hn => exact .named hm hn
  | matched hm hn ha hk => exact .matched hm hn ha hk
  | body hm hn hw _ ih => exact .body hm hn hw ih
  | part hm hw _ ih => exact .part hm hw ih

-- Under all bounds the names are derived. A name that other bounds bring in is one that the run
-- without a limit has missed, for what it left aside or for the place in which it met an array.
theorem names_of_settings (s : Store) (settings : ReachabilitySettings) (document : NodeId) :
    (∀ k ∈ (collect s settings document).names, Derived s document k) ∧
    ∀ other : ReachabilitySettings, (collect s other document).limits = [] →
      ∀ k ∈ (collect s settings document).names,
        (collect s other document).names.contains k = true ∨
          Missed (scopeOf s other document) (collect s other document) k := by
  refine ⟨fun k hk => derived_of_mem_collect hk, fun other hlimits k hk => ?_⟩
  have hagenda := agenda_collect hlimits
  have hsound : Sound (scopeOf s other document) (fun _ => True) (collect s other document) :=
    sound_collect fun _ _ _ _ => trivial
  obtain ⟨seed, hseed, hleads⟩ := leads_of_mem_collect hk
  have howed := hagenda.bodies seed.schema (List.mem_map_of_mem hseed)
  exact found_or_missed hagenda hsound (hleads.of_settings other)
    (howed.resolve_right List.not_mem_nil)

-- One array is a property in the first response body and is itself the second one. By its type it
-- is a copy of `Tags` only as a body.
def sharedArray : Store :=
  ⟨#[
    .ofFields [("components", .node 1)],
    .ofFields [("schemas", .node 2), ("responses", .node 5)],
    .ofFields [("Tags", .node 3)],
    .ofFields [("type", .str "array"), ("items", .node 4)],
    .ofFields [("type", .str "string")],
    .ofFields [("First", .node 6), ("Second", .node 10)],
    .ofFields [("content", .node 7)],
    .ofFields [("application/json", .node 8)],
    .ofFields [("schema", .node 9)],
    .ofFields [("properties", .node 13)],
    .ofFields [("content", .node 11)],
    .ofFields [("application/json", .node 12)],
    .ofFields [("schema", .node 14)],
    .ofFields [("list", .node 14)],
    .ofFields [("type", .str "array"), ("items", .node 15)],
    .ofFields [("type", .str "string")]]⟩

-- Without a limit the array counts as visited before it is met as a body, and its name is missed.
-- A bound that keeps the walk from the properties brings the name in.
theorem missed_sharedArray :
    .str "Tags" ∈ (collect sharedArray { maxDepth := 0 } 0).names ∧
      (collect sharedArray {} 0).limits = [] ∧
      (collect sharedArray {} 0).names.contains (.str "Tags") = false ∧
      Derived sharedArray 0 (.str "Tags") ∧
      Missed (scopeOf sharedArray {} 0) (collect sharedArray {} 0) (.str "Tags") := by
  have hfound : (collect sharedArray { maxDepth := 0 } 0).names.contains (.str "Tags") = true := by
    decide +kernel
  have hlost : (collect sharedArray {} 0).names.contains (.str "Tags") = false := by
    decide +kernel
  have hlimits : (collect sharedArray {} 0).limits = [] := by decide +kernel
  obtain ⟨hderived, hmissed⟩ := names_of_settings sharedArray { maxDepth := 0 } 0
  have hmem := Key.contains_str.mp hfound
  refine ⟨hmem, hlimits, hlost, hderived _ hmem, ?_⟩
  refine (hmissed {} hlimits _ hmem).resolve_left fun hin => ?_
  rw [hlost] at hin
  cases hin

end ApiGraph.Reachability
