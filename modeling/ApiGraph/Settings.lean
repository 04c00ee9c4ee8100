namespace ApiGraph

structure ResolverSettings where
  -- Further places to look for referenced files.
  searchPaths : List String := []
  maxRefDepth : Int := 15
  maxNodes : Int := 10000
  maxFileSize : Int := 104857600
  searchWalkDepth : Int := 10
deriving DecidableEq, Inhabited

structure CompositionSettings where
  maxDepth : Int := 10
deriving DecidableEq, Inhabited

structure NamingSettings where
  maxDepth : Int := 100
deriving DecidableEq, Inhabited

structure ReachabilitySettings where
  maxDepth : Int := 15
  -- How deep the parts of a schema are still walked.
  maxNestedDepth : Int := 10
  maxBranches : Int := 20
  maxProperties : Int := 100
  maxNamesPerWalk : Int := 1500
  maxNames : Int := 10000
  -- A registry of more schemas than this is walked less deep.
  largeRegistryThreshold : Int := 500
  largeRegistryDepth : Int := 3
deriving DecidableEq, Inhabited

structure Settings where
  resolver : ResolverSettings := {}
  composition : CompositionSettings := {}
  naming : NamingSettings := {}
  reachability : ReachabilitySettings := {}
deriving DecidableEq, Inhabited

end ApiGraph
