import LatticeSurgery.Lattice.Format
import LatticeSurgery.Timeline

namespace LatticeSurgery.Timeline

/-- The slices as a JSON array. -/
def jsonText (timeline : Timeline) : String :=
  (Text.Json.array (timeline.slices.map Lattice.toJson)).text

end LatticeSurgery.Timeline
