import HorizonNewDawn.Php.Json

/-! # Retained jobs and their facets

The retained-job types, the metadata the index keeps of a job and the facets that metadata gives. -/

namespace HorizonNewDawn

/-- The retained histories of Horizon, each with its own index. -/
inductive RetainedJobType
  | pending
  | completed
  | silenced
  | failed
  deriving DecidableEq, Repr

namespace RetainedJobType

/-- Every retained-job type, in the order of the enumeration. -/
def cases : List RetainedJobType := [pending, completed, silenced, failed]

/-- Every type is listed. -/
theorem mem_cases (t : RetainedJobType) : t ∈ cases := by cases t <;> decide

/-- Completed and silenced histories are listed with their newest jobs first. -/
def newestFirst (t : RetainedJobType) : Bool := t = completed ∨ t = silenced

end RetainedJobType

/-! ## Metadata -/

/-- A job object as the job repository returns it. A field that is absent or not a string is
`none`; `payload` is the decoded payload, `none` where it is not a non-empty JSON text. -/
structure JobObject where
  id : Option String
  name : Option String
  queue : Option String
  connection : Option String
  payload : Option Json

/-- What the index keeps of a job. -/
structure RetainedJobMetadata where
  id : String
  name : String
  queue : String
  connection : String
  tags : List String
  deriving DecidableEq, Repr

/-- The dimensions jobs are indexed by. -/
inductive FacetDimension
  | job
  | queue
  | connection
  | tag
  | target
  deriving DecidableEq, Repr

namespace FacetDimension

/-- Every facet dimension (`FACET_DIMENSIONS`). -/
def cases : List FacetDimension := [job, queue, connection, tag, target]

/-- Every dimension is listed. -/
theorem mem_cases (d : FacetDimension) : d ∈ cases := by cases d <;> decide

/-- The dimensions in which a job has exactly one value (`SINGLE_VALUED_CATALOG_DIMENSIONS`). -/
def isSingleValued (d : FacetDimension) : Bool := d ∈ [job, queue, connection, target]

end FacetDimension

namespace RetainedJobMetadata

/-- A string field, with a fallback where it is absent or empty. -/
def stringValue (value : Option String) (fallback : String) : String :=
  match value with
  | some s => if s ≠ "" then s else fallback
  | none => fallback

/-- The tags a payload lists. -/
def payloadTags (payload : Option Json) : List String :=
  ((payload.bind (Json.member "tags")).bind Json.strings).getD []

/-- The metadata of a job object, `none` without an id or a name. -/
def fromJob (job : JobObject) : Option RetainedJobMetadata :=
  match job.id, job.name with
  | some id, some name =>
      if id = "" ∨ name = "" then none
      else some
        { id := id
          name := name
          queue := stringValue job.queue "default"
          connection := stringValue job.connection "default"
          tags := payloadTags job.payload }
  | _, _ => none

/-- The connection and queue of a job as one value. -/
def targetValue (m : RetainedJobMetadata) : String := Json.encodeStrings [m.connection, m.queue]

/-- The values of a job in every dimension. -/
def facetValues (m : RetainedJobMetadata) : FacetDimension → List String
  | .job => [m.name]
  | .queue => [m.queue]
  | .connection => [m.connection]
  | .tag => m.tags.eraseDups
  | .target => [m.targetValue]

end RetainedJobMetadata

/-- The facet values of a job for a retained-job type: only failed jobs are indexed by tag, only
pending ones by target. -/
def facetValues (t : RetainedJobType) (m : RetainedJobMetadata) (d : FacetDimension) :
    List String :=
  match d with
  | .tag => if t = .failed then m.facetValues .tag else []
  | .target => if t = .pending then m.facetValues .target else []
  | d => m.facetValues d

/-- The dimensions whose catalogs may not be empty while anything is indexed. -/
def requiredCatalogDimensions (t : RetainedJobType) : List FacetDimension :=
  if t = .pending then [.job, .queue, .connection, .target] else [.job, .queue, .connection]

/-- A job has a value in every required dimension. -/
theorem facetValues_ne_nil {t : RetainedJobType} {d : FacetDimension}
    (hd : d ∈ requiredCatalogDimensions t) (m : RetainedJobMetadata) : facetValues t m d ≠ [] := by
  cases t <;> cases d <;>
    simp_all [requiredCatalogDimensions, facetValues, RetainedJobMetadata.facetValues]

end HorizonNewDawn
