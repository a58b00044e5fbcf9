import StaxFS.Dent.Appends
import StaxFS.Wal.ExactlyOnce
import StaxFS.Listing.Winners
import StaxFS.Listing.Fetch
import StaxFS.Metadata.Ids
import StaxFS.Metadata.Locate
import StaxFS.Metadata.Renames
import StaxFS.Metadata.Versions
import StaxFS.Metadata.Causality
import StaxFS.Metadata.Agreement
import StaxFS.Metadata.Lifetime
import StaxFS.Client.Merge
import StaxFS.Client.Locks
import StaxFS.Client.Objects
import StaxFS.Client.Descriptors
import StaxFS.Table.Geometry
import StaxFS.Table.Found
import StaxFS.Inodes.Reads
import StaxFS.Persist.Slots
import StaxFS.Persist.Forward
import StaxFS.Persist.LinkCounts
import StaxFS.Persist.Durable
import StaxFS.Persist.Refusals
import StaxFS.Persist.Shutdown
